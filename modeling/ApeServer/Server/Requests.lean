import ApeServer.Server.Alive

/-!
# Requests and the subusers that wait

What holds of every waiting subuser holds after a request as well, if it holds of the
subuser the request opens. Only the first object of a request finds a user; a later one
opens a subuser again when the connection of the request was turned away.
-/
namespace ApeServer

open Sock (Bytes)
open Steps (ok_bind bind_ok)

def isQuit (cmd : Bytes) : Bool := strcaseeq cmd (bytes "QUIT")

theorem strcaseeq_congr {k m : Bytes} (h : strcaseeq k m = true) (n : Bytes) :
    strcaseeq k n = strcaseeq m n := by
  simp only [strcaseeq, decide_eq_true_eq] at h
  rw [strcaseeq, strcaseeq, h]

/-- Where the subusers of a user are and how they are answered. -/
structure Station where
  subuser : List SubId
  transport : Transport

def User.station (x : User) : Station := ⟨x.subuser, x.transport⟩

namespace Ape

variable {s s' t s₀ : Ape} {u : UserId} {i j : SubId} {x : User} {y y' : Subuser} {fd : Fd}
  {pc : Pc} {cp : Callbackp} {flag : UInt32} {domain : Bool} {cmd : Bytes}

/-! ### Commands -/

/-- A step that moves no subuser. -/
structure Even (s s' : Ape) : Prop where
  users : ∀ u, (s'.users u).map User.station = (s.users u).map User.station
  subs : ∀ i, (s'.subs i).map Subuser.line = (s.subs i).map Subuser.line
  progress : ∀ i, (s'.subs i).map Subuser.progress = (s.subs i).map Subuser.progress
  sockets : Sockets s s'

namespace Even

theorem refl : Even s s := ⟨fun _ => rfl, fun _ => rfl, fun _ => rfl, .refl⟩

theorem trans (h : Even s t) (h' : Even t s') : Even s s' :=
  ⟨fun u => (h'.users u).trans (h.users u), fun i => (h'.subs i).trans (h.subs i),
    fun i => (h'.progress i).trans (h.progress i), h.sockets.trans h'.sockets⟩

theorem of_minor (h : Minor s s') : Even s s' := by
  refine ⟨fun u => ?_, h.subs, h.progress, h.sockets⟩
  have hu := congrArg (Option.map fun k : Seat => (⟨k.subuser, k.transport⟩ : Station)) (h.users u)
  rw [Option.map_map, Option.map_map] at hu
  exact hu

theorem setUser {x' : User} (hx : s.users u = some x) (h : x'.station = x.station) :
    Even s (s.setUser u x') :=
  ⟨map_setUser _ hx h, fun _ => rfl, fun _ => rfl, .refl⟩

theorem sub_back (h : Even s s') (hy' : s'.subs i = some y') :
    ∃ y, s.subs i = some y ∧ y'.line = y.line ∧ Carries s s' y y' := by
  have hl := h.subs i
  rw [hy'] at hl
  obtain ⟨y, hy, he⟩ := Option.map_eq_some_iff.mp hl.symm
  have hp := h.progress i
  rw [hy', hy] at hp
  refine ⟨y, hy, he.symm, .of_users (fun u x' hx' => ?_) (congrArg Line.client he.symm)
    (Option.some.inj hp) (.inl (congrArg Line.user he.symm))⟩
  have hu := h.users u
  rw [hx'] at hu
  obtain ⟨x, hx, hs⟩ := Option.map_eq_some_iff.mp hu.symm
  exact ⟨x, hx, (congrArg Station.transport hs).symm⟩

theorem sub (h : Even s s') (hy : s.subs i = some y) :
    ∃ y', s'.subs i = some y' ∧ y'.line = y.line ∧ y'.progress = y.progress := by
  have hl := h.subs i
  rw [hy] at hl
  obtain ⟨y', hy', he⟩ := Option.map_eq_some_iff.mp hl
  have hp := h.progress i
  rw [hy', hy] at hp
  exact ⟨y', hy', he, Option.some.inj hp⟩

theorem user (h : Even s s') (hx : s.users u = some x) :
    ∃ x', s'.users u = some x' ∧ x'.station = x.station := by
  have hu := h.users u
  rw [hx] at hu
  exact Option.map_eq_some_iff.mp hu

theorem calm {B : SubId → Prop} (h : Even s s') : Calm B s s' := by
  refine ⟨h.sockets, fun i y' _ hy' ha => ?_⟩
  obtain ⟨y, hy, he, hc⟩ := h.sub_back hy'
  exact ⟨y, hy, (congrArg Line.state he).symm.trans ha, hc⟩

end Even

/-- The walk of `getsubuser` looks at the lists of subusers and at their hosts. -/
theorem getsubuser_congr {channel : Bytes}
    (hu : ∀ u, (s'.users u).map User.subuser = (s.users u).map User.subuser)
    (hs : ∀ i, (s'.subs i).map Subuser.channel = (s.subs i).map Subuser.channel) :
    s'.getsubuser u channel = s.getsubuser u channel := by
  have hfind : ∀ l, s'.findSub channel l = s.findSub channel l := by
    intro l
    induction l with
    | nil => rfl
    | cons i l ih =>
      have hi := hs i
      rw [findSub, findSub, sub, sub]
      cases hy : s.subs i <;> cases hy' : s'.subs i <;> rw [hy, hy'] at hi
      · rfl
      · cases hi
      · cases hi
      · simp only [Option.map_some, Option.some.injEq] at hi
        simp only [ok_bind, hi, ih]
  have hx := hu u
  rw [getsubuser, getsubuser, user, user]
  cases hx₁ : s.users u <;> cases hx₂ : s'.users u <;> rw [hx₁, hx₂] at hx
  · rfl
  · cases hx
  · cases hx
  · simp only [Option.map_some, Option.some.injEq] at hx
    simp only [ok_bind, hx, hfind]

theorem Even.getsubuser {channel : Bytes} (h : Even s s') :
    s'.getsubuser u channel = s.getsubuser u channel := by
  refine getsubuser_congr (fun v => ?_) fun i => ?_
  · have hv := congrArg (Option.map Station.subuser) (h.users v)
    rw [Option.map_map, Option.map_map] at hv
    exact hv
  · have hi := congrArg (Option.map Line.channel) (h.subs i)
    rw [Option.map_map, Option.map_map] at hi
    exact hi

theorem adduser_even (h : s.adduser u = .ok s') : Even s s' := by
  obtain ⟨x, hx, h⟩ := bind_ok h
  cases h
  have h1 : Even s (s.setUser u { x with istmp := false }) := .setUser (user_ok hx) rfl
  exact h1.trans ⟨fun _ => rfl, fun _ => rfl, fun _ => rfl, .refl⟩

/-- `CONNECT` runs with the subuser of its new user. -/
theorem cmdConnect_even (h : cmdConnect cp s = .ok (flag, s')) :
    Even s s' ∧ ∃ i, cp.call_subuser = some i := by
  obtain ⟨u, -, h⟩ := bind_ok h
  obtain ⟨t, ht, h⟩ := bind_ok h
  obtain ⟨x, -, h⟩ := bind_ok h
  obtain ⟨i, hi, h⟩ := bind_ok h
  obtain ⟨t₁, ht₁, h⟩ := bind_ok h
  obtain ⟨t₂, ht₂, h⟩ := bind_ok h
  cases h
  exact ⟨(adduser_even ht).trans
    (.of_minor (.of_posted ((postRawSub_posted ht₁).trans (postRaw_posted ht₂)))), i, useSub_ok hi⟩

/-- A command is `QUIT`, is `CONNECT`, or moves no subuser. -/
theorem seek_plain (domain : Bool) (cmd : Bytes) :
    isQuit cmd = true ∧ ((Cmds.plain domain).seek cmd).func = cmdQuit ∨
    isConnect cmd = true ∧ isQuit cmd = false ∧
      ((Cmds.plain domain).seek cmd).func = cmdConnect ∨
    isQuit cmd = false ∧ isConnect cmd = false ∧ ∀ cp s flag s',
      ((Cmds.plain domain).seek cmd).func cp s = .ok (flag, s') → Minor s s' := by
  have hname : ∀ n, strcaseeq cmd (bytes n) = true →
      isQuit cmd = strcaseeq (bytes n) (bytes "QUIT") ∧
        isConnect cmd = strcaseeq (bytes n) (bytes "CONNECT") :=
    fun n h => ⟨strcaseeq_congr h _, strcaseeq_congr h _⟩
  unfold Cmds.seek Cmds.plain builtins Htbl.seek
  simp only [List.foldl_cons, List.foldl_nil, Htbl.append]
  split_ifs with h1 h2 h3 h4 h5 h6 h7 h8
  · obtain ⟨hq, hc⟩ := hname _ h1
    exact .inr (.inr ⟨hq, hc, fun _ _ _ _ h => (cmdSession_spec h).1⟩)
  · obtain ⟨hq, hc⟩ := hname _ h2
    exact .inr (.inr ⟨hq, hc, fun _ _ _ _ h => cmdLeft_minor h⟩)
  · obtain ⟨hq, hc⟩ := hname _ h3
    exact .inr (.inr ⟨hq, hc, fun _ _ _ _ h => cmdJoin_minor h⟩)
  · exact .inl ⟨h4, rfl⟩
  · obtain ⟨hq, hc⟩ := hname _ h5
    exact .inr (.inr ⟨hq, hc, fun _ _ _ _ h => .of_posted (cmdSend_posted h)⟩)
  · obtain ⟨hq, hc⟩ := hname _ h6
    refine .inr (.inr ⟨hq, hc, fun _ _ _ _ h => ?_⟩)
    cases h
    exact .refl
  · obtain ⟨hq, hc⟩ := hname _ h7
    exact .inr (.inr ⟨hq, hc, fun _ _ _ _ h => (cmdScript_spec h).1⟩)
  · obtain ⟨hq, -⟩ := hname _ h8
    exact .inr (.inl ⟨h8, hq, rfl⟩)
  · refine .inr (.inr ⟨Bool.eq_false_iff.mpr h4, Bool.eq_false_iff.mpr h8, fun _ _ _ _ h => ?_⟩)
    cases h
    exact .refl

end Ape

end ApeServer
