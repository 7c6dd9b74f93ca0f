import ApeServer.Transports
import ApeServer.Http.ProcessHttp

/-! The `json_item` trees: what the commands read and what the raws carry. -/
namespace ApeServer

open Sock (Bytes)

/-- `strcasecmp(a, b) == 0`. -/
def strcaseeq (a b : Bytes) : Bool := a.map Http.tolower = b.map Http.tolower

/-- `json_child_t`. -/
inductive JsonKind where
  | obj
  | arr
  | val
deriving DecidableEq, Repr

/-- `json_item`. `vu` is a struct in the source, so the integer and the string of an item
are two fields; `none` is a NULL pointer. The siblings of an item are the list it is in. -/
inductive JsonItem where
  | mk (key : Option Bytes) (kind : JsonKind) (str : Option Bytes) (int : ℤ)
      (child : List JsonItem)

namespace JsonItem

def key : JsonItem → Option Bytes
  | mk k _ _ _ _ => k

/-- `jval.vu.str.value`. -/
def str : JsonItem → Option Bytes
  | mk _ _ v _ _ => v

/-- `jval.vu.integer_value`. -/
def int : JsonItem → ℤ
  | mk _ _ _ n _ => n

def child : JsonItem → List JsonItem
  | mk _ _ _ _ c => c

def newObject : JsonItem := mk none .obj none 0 []

def newArray : JsonItem := mk none .arr none 0 []

def append (o v : JsonItem) : JsonItem :=
  match o with
  | mk k t s n c => mk k t s n (c ++ [v])

def withKey (v : JsonItem) (k : Bytes) : JsonItem :=
  match v with
  | mk _ t s n c => mk (some k) t s n c

/-- `json_set_property_strN`, `json_set_property_strZ`. -/
def setStr (o : JsonItem) (k v : Bytes) : JsonItem := o.append (mk (some k) .val (some v) 0 [])

/-- `json_set_property_intN`. -/
def setInt (o : JsonItem) (k : Bytes) (n : ℤ) : JsonItem := o.append (mk (some k) .val none n [])

/-- `json_set_property_objN`. -/
def setObj (o : JsonItem) (k : Bytes) (v : JsonItem) : JsonItem := o.append (v.withKey k)

/-- `json_set_element_obj`. -/
def setElement (o v : JsonItem) : JsonItem := o.append v

end JsonItem

/-- `json_lookup` for a path without a dot, the only kind the commands use: the items from
the one found on, `[]` for NULL. A container is entered, so its first child is returned. -/
def jsonLookup (path : Bytes) : List JsonItem → List JsonItem
  | [] => []
  | head :: next =>
    if head.key.any (strcaseeq path) then
      if head.child = [] then head :: next else head.child
    else jsonLookup path next

/-- `JSTR` on a list of items: NULL when the key is missing or holds no string. -/
def jstr (items : List JsonItem) (path : Bytes) : Option Bytes :=
  (jsonLookup path items).head?.bind JsonItem.str

/-- The values `JFOREACH` iterates over. -/
def jforeach (items : List JsonItem) (path : Bytes) : List Bytes :=
  (jsonLookup path items).filterMap JsonItem.str

/-- The pairs `JFOREACH_K` iterates over. -/
def jforeachK (items : List JsonItem) (path : Bytes) : List (Bytes × Bytes) :=
  (jsonLookup path items).filterMap fun i =>
    match i.key, i.str with
    | some k, some v => some (k, v)
    | _, _ => none

end ApeServer
