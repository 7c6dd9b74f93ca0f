import ApeServer.Sock.Bufout
import ApeServer.Lib.Steps

/-!
# The query queue of a MySQL handle

`apemysql_push_queue`, `apemysql_shift_queue` and the completion handlers of
`libape-spidermonkey.c`. A handler stops where it calls JavaScript; what it does after the
call is taken up when the called function returns. In between the function may push again.
-/
namespace ApeServer.Mysql

open Sock (Bytes)

/-- What is wrong with a pointer that is followed. -/
inductive Stop where
  | null
  | freed

/-- `ape_mysql_state_t`. -/
inductive SqlState where
  | readyForQuery
  | needQueue
  deriving DecidableEq

/-- `struct _ape_mysql_queue`, with the JavaScript function as `κ`. -/
structure MysqlQueue (κ : Type) where
  next : Option ℕ
  query : Bytes
  callback : κ

/-- The functions `on_success` points to. -/
inductive OnSuccess where
  | connect
  | setdb
  | query
  deriving DecidableEq

/-- A call of JavaScript that has not returned, and the handler that made it. `setdb` is
`mysac_setdb_success` while the shift it has called is not over. -/
inductive Frame where
  | callback (queue : ℕ)
  | setdb
  | onConnect
  | onError (code : ℤ)
  deriving DecidableEq

/-- What mysac has read into `queue->res`. -/
structure Res where
  cols : List Bytes
  rows : List (List (Option Bytes))

/-- What a call of mysac's io function answers. `want` is `MYERR_WANT_READ` or
`MYERR_WANT_WRITE`. -/
inductive Answer where
  | want
  | done (code : ℤ) (res : Res)

/-- The arguments of a callback. A row is an object with one property for each column. -/
inductive Params where
  | rows (rows : List (List (Bytes × Option Bytes)))
  | error (code : ℤ)

def params (code : ℤ) (res : Res) : Params :=
  if code = 0 then .rows (res.rows.map fun row => res.cols.zip row) else .error code

/-- A pushed query: the entry it was given and what it holds. -/
structure Job (κ : Type) where
  id : ℕ
  query : Bytes
  callback : κ

/-- `struct _ape_mysql_data`, the part of `MYSAC` it decides on, and the calls under way.
The last four fields are the history: they are written and never read. -/
structure MysqlData (κ : Type) where
  entries : ℕ → Option (MysqlQueue κ)
  fresh : ℕ
  head : Option ℕ
  foot : Option ℕ
  state : SqlState
  onSuccess : Option OnSuccess
  data : Option ℕ
  /-- `jsmysql` is not NULL. -/
  jsmysql : Bool
  /-- `my->call_it` is not NULL. -/
  callIt : Bool
  stack : List Frame
  selected : Bool
  pushed : List (Job κ)
  sent : List (Job κ)
  called : List (Job κ × Params)

variable {κ : Type}

namespace MysqlData

def entry (s : MysqlData κ) (queue : ℕ) : Except Stop (MysqlQueue κ) :=
  match s.entries queue with
  | some e => .ok e
  | none => .error .freed

/-- The link of an entry. -/
def next (s : MysqlData κ) (queue : ℕ) : Option ℕ := (s.entries queue).bind MysqlQueue.next

def setEntry (s : MysqlData κ) (queue : ℕ) (e : Option (MysqlQueue κ)) : MysqlData κ :=
  { s with entries := Function.update s.entries queue e }

end MysqlData

def deref (p : Option ℕ) : Except Stop ℕ :=
  match p with
  | some queue => .ok queue
  | none => .error .null

/-- `bufsize` of `mysac_new(1024*1024)`. -/
def bufsize : ℕ := 1024 * 1024

/-- The query fits in the buffer of mysac. -/
def Fits (query : Bytes) : Prop := query.length ≤ bufsize - 5

instance (query : Bytes) : Decidable (Fits query) := inferInstanceAs (Decidable (_ ≤ _))

/-- `mysac_b_set_query`. Its caller does not look at the result. -/
def bSetQuery (query : Bytes) (s : MysqlData κ) : MysqlData κ :=
  if Fits query then { s with callIt := true } else s

/-- `mysac_query_success` up to the call of the callback. -/
def querySuccess (code : ℤ) (res : Res) (s : MysqlData κ) : Except Stop (MysqlData κ) := do
  let queue ← deref s.data
  let e ← s.entry queue
  .ok { s with
    state := .readyForQuery
    onSuccess := none
    stack := .callback queue :: s.stack
    called := s.called ++ [(⟨queue, e.query, e.callback⟩, params code res)] }

variable (send : ℕ → Job κ → Answer)

/-- `apemysql_shift_queue`. `send k` is what the `k`th call of `mysac_send_query` answers. -/
def shiftQueue (s : MysqlData κ) : Except Stop (MysqlData κ) :=
  match s.head with
  | none => .ok s
  | some queue =>
    if s.state = .readyForQuery then do
      let e ← s.entry queue
      let job : Job κ := ⟨queue, e.query, e.callback⟩
      let s₁ := bSetQuery e.query { s with
        state := .needQueue
        data := some queue
        head := e.next
        foot := if e.next = none then none else s.foot
        sent := s.sent ++ [job] }
      match send s.sent.length job with
      | .want => .ok { s₁ with onSuccess := some .query }
      | .done code res => querySuccess code res { s₁ with onSuccess := none, callIt := false }
    else .ok s

/-- A new entry behind the foot, or at the head of an empty queue. -/
def link (nqueue : ℕ) (s : MysqlData κ) : Except Stop (MysqlData κ) :=
  match s.foot with
  | none => .ok { s with head := some nqueue, foot := some nqueue }
  | some foot => do
    let e ← s.entry foot
    .ok { s.setEntry foot (some { e with next := some nqueue }) with foot := some nqueue }

/-- `apemysql_push_queue`. -/
def pushQueue (query : Bytes) (callback : κ) (s : MysqlData κ) : Except Stop (MysqlData κ) := do
  let nqueue := s.fresh
  let s₁ ← link nqueue { s.setEntry nqueue (some ⟨none, query, callback⟩) with
    fresh := s.fresh + 1
    pushed := s.pushed ++ [⟨nqueue, query, callback⟩] }
  let head ← deref s₁.head
  let e ← s₁.entry head
  if e.next = none ∧ s₁.state = .readyForQuery then shiftQueue send s₁ else .ok s₁

/-- `mysac_setdb_success` goes on after its shift. -/
def afterShift (s : MysqlData κ) : MysqlData κ :=
  match s.stack with
  | .setdb :: stack => { s with stack := .onConnect :: stack }
  | _ => s

/-- `mysac_setdb_success`. -/
def setdbSuccess (code : ℤ) (s : MysqlData κ) : Except Stop (MysqlData κ) :=
  if s.jsmysql then
    if code = 0 then do
      let s₁ ← shiftQueue send { s with
        state := .readyForQuery, stack := .setdb :: s.stack, selected := true }
      .ok (afterShift s₁)
    else .ok { s with stack := .onError code :: s.stack }
  else .ok s

/-- `mysac_connect_success`. `mysac_set_database` sets `call_it`. -/
def connectSuccess (code : ℤ) (s : MysqlData κ) : MysqlData κ :=
  if s.jsmysql then
    if code = 0 then { s with onSuccess := some .setdb, callIt := true }
    else { s with stack := .onError code :: s.stack }
  else s

/-- `ape_mysql_handle_io`, with the answer of `mysac_io`. -/
def handleIo (answer : Answer) (s : MysqlData κ) : Except Stop (MysqlData κ) :=
  if s.callIt then
    match answer with
    | .want => .ok s
    | .done code res =>
      let s₁ := { s with callIt := false }
      match s₁.onSuccess with
      | none => .ok s₁
      | some .connect => .ok (connectSuccess code s₁)
      | some .setdb => setdbSuccess send code s₁
      | some .query => querySuccess code res s₁
  else .ok s

/-- The JavaScript function called last returns, and its handler goes on. -/
def jsReturn (s : MysqlData κ) : Except Stop (MysqlData κ) :=
  match s.stack with
  | .callback queue :: stack => do
    let _ ← s.entry queue
    let s₁ ← shiftQueue send { s.setEntry queue none with stack := stack }
    .ok (afterShift s₁)
  | .onConnect :: stack => .ok { s with stack := stack }
  | .onError _ :: stack => .ok { s with stack := stack, jsmysql := false, onSuccess := none }
  | _ => .ok s

/-- What can happen to a handle. -/
inductive Event (κ : Type) where
  | push (query : Bytes) (callback : κ)
  | ret
  | io (answer : Answer)
  | finalize

def step (s : MysqlData κ) : Event κ → Except Stop (MysqlData κ)
  | .push query callback => pushQueue send query callback s
  | .ret => jsReturn send s
  | .io answer => handleIo send answer s
  | .finalize => .ok { s with jsmysql := false }

/-- A query may be pushed at any time, by the function that runs or from outside. The
socket is served, and the object collected, while none runs: it is the `this` of each. -/
def Allowed (s : MysqlData κ) : Event κ → Prop
  | .push _ _ => True
  | .ret => s.stack ≠ []
  | .io _ => s.stack = []
  | .finalize => s.stack = []

instance (s : MysqlData κ) (e : Event κ) : Decidable (Allowed s e) :=
  match e with
  | .push _ _ => isTrue trivial
  | .ret => inferInstanceAs (Decidable (_ ≠ _))
  | .io _ => inferInstanceAs (Decidable (_ = _))
  | .finalize => inferInstanceAs (Decidable (_ = _))

/-- The handle `ape_sm_mysql_constructor` makes. -/
def start : MysqlData κ where
  entries _ := none
  fresh := 0
  head := none
  foot := none
  state := .needQueue
  onSuccess := some .connect
  data := none
  jsmysql := true
  callIt := true
  stack := []
  selected := false
  pushed := []
  sent := []
  called := []

end ApeServer.Mysql
