import ApeServer.Server.Named

/-!
# As whom a command is run

The commands of one request are run as the user that a sessid of the request names, until a
`CONNECT` of the request makes another one; nothing is run after a command that gives its
user up.
-/
namespace ApeServer

open Sock (Bytes)
open Steps (ok_bind bind_ok foldlM_keeps Reach)

namespace Call

/-- The object of the command has a sessid that leads to the user. -/
def names (c : Call) (u : UserId) : Prop :=
  ∃ sessid, jstr c.object.child (bytes "sessid") = some sessid ∧ sessid.length = 32 ∧
    c.before.hSessid.seek sessid = some u

/-- The command is a `CONNECT`. -/
def connects (c : Call) : Prop := ∃ cmd, jstr c.object.child (bytes "cmd") = some cmd ∧
  isConnect cmd = true

/-- The command is a `CONNECT` that made the user. -/
def creates (c : Call) (u : UserId) : Prop :=
  c.connects ∧ c.call_user = some u ∧ c.before.users u = none

end Call

/-- What holds of the commands a request ran, in their order. -/
structure Identified (calls : List Call) : Prop where
  /-- a callback that needs a user is called for a live one, which an object of the request
  up to its own names or made -/
  need : ∀ (k : ℕ) (c : Call) (t : Ape), calls[k]? = some c → c.need = .sessid → c.called = some t →
    ∃ u, c.call_user = some u ∧ t.users u ≠ none ∧
      ∃ j d, j ≤ k ∧ calls[j]? = some d ∧ (d.names u ∨ d.creates u)
  /-- commands without a `CONNECT` between them are called for the same user -/
  same : ∀ (j k : ℕ) (c d : Call), j ≤ k → calls[j]? = some c → calls[k]? = some d →
    (∀ (m : ℕ) (e : Call), j < m → m ≤ k → calls[m]? = some e → ¬e.connects) → c.call_user = d.call_user
  /-- a command that gives its user up is the last one -/
  last : ∀ (k : ℕ) (c : Call), calls[k]? = some c → hasFlag c.flag returnNull = true → calls.length = k + 1

theorem Identified.nil : Identified [] := by
  refine ⟨?_, ?_, ?_⟩ <;> simp

theorem getElem?_snoc {α : Type} {l : List α} {a b : α} {k : ℕ}
    (h : (l ++ [a])[k]? = some b) : l[k]? = some b ∨ k = l.length ∧ b = a := by
  by_cases hk : k < l.length
  · rw [List.getElem?_append_left hk] at h
    exact .inl h
  · rw [List.getElem?_append_right (by omega)] at h
    have hz : k - l.length = 0 := by
      by_contra hne
      obtain ⟨n, hn⟩ := Nat.exists_eq_succ_of_ne_zero hne
      simp [hn] at h
    rw [hz] at h
    exact .inr ⟨by omega, (Option.some.inj h).symm⟩

theorem getElem?_snoc_left {α : Type} {l : List α} {a b : α} {k : ℕ} (h : l[k]? = some b) :
    (l ++ [a])[k]? = some b := by
  rw [List.getElem?_append_left (List.getElem?_eq_some_iff.mp h).1, h]

/-- One more command. -/
theorem Identified.snoc {calls : List Call} {c : Call} (h : Identified calls)
    (hneed : c.need = .sessid → ∀ t, c.called = some t → ∃ u, c.call_user = some u ∧
      t.users u ≠ none ∧ ∃ d ∈ calls ++ [c], d.names u ∨ d.creates u)
    (hsame : ∀ d, calls.getLast? = some d → ¬c.connects → d.call_user = c.call_user)
    (hlast : ∀ d ∈ calls, hasFlag d.flag returnNull = false) : Identified (calls ++ [c]) where
  need k d t hk hd ht := by
    rcases getElem?_snoc hk with hk' | ⟨rfl, rfl⟩
    · obtain ⟨u, hu, hlive, j, e, hj, he, hfrom⟩ := h.need k d t hk' hd ht
      exact ⟨u, hu, hlive, j, e, hj, getElem?_snoc_left he, hfrom⟩
    · obtain ⟨u, hu, hlive, e, he, hfrom⟩ := hneed hd t ht
      obtain ⟨j, hj⟩ := List.mem_iff_getElem?.mp he
      refine ⟨u, hu, hlive, j, e, ?_, hj, hfrom⟩
      have := (List.getElem?_eq_some_iff.mp hj).1
      simp at this
      omega
  same j k d e hjk hj hk hno := by
    rcases getElem?_snoc hk with hk' | ⟨rfl, rfl⟩
    · have hj' : calls[j]? = some d := by
        have := (List.getElem?_eq_some_iff.mp hk').1
        rwa [List.getElem?_append_left (by omega)] at hj
      exact h.same j k d e hjk hj' hk' fun m f hm hmk hf =>
        hno m f hm hmk (getElem?_snoc_left hf)
    · rcases getElem?_snoc hj with hj' | ⟨rfl, rfl⟩
      · -- `d` and the command before the last one have the same user
        have hlt := (List.getElem?_eq_some_iff.mp hj').1
        obtain ⟨f, hf⟩ : ∃ f, calls[calls.length - 1]? = some f :=
          ⟨_, List.getElem?_eq_getElem (by omega)⟩
        have h1 := h.same j (calls.length - 1) d f (by omega) hj' hf fun m g hm hmk hg =>
          hno m g hm (by omega) (getElem?_snoc_left hg)
        have h2 := hsame f (by rw [List.getLast?_eq_getElem?, hf])
          (hno calls.length e hlt le_rfl hk)
        exact h1.trans h2
      · rfl
  last k d hk hd := by
    rcases getElem?_snoc hk with hk' | ⟨rfl, rfl⟩
    · have := hlast d (List.mem_of_getElem? hk')
      rw [this] at hd
      cases hd
    · simp

namespace Ape

variable {s s' t : Ape} {u : UserId} {i : SubId} {x : User} {cmds : Cmds} {cp : Callbackp}
  {flag : UInt32} {pc : Pc} {iuser : Option SubId} {ijson : JsonItem}

/-! ### Hooks, handlers and the callback -/

theorem callHooks_harmless {l : List Hook} (hh : ∀ h ∈ l, Harmless h.func)
    (hl : callHooks cp l s = .ok (flag, s')) :
    (∀ u, s.users u ≠ none → s'.users u ≠ none) ∧ (s.Keyed → s'.Keyed) := by
  induction l generalizing s with
  | nil =>
    cases hl
    exact ⟨fun _ h => h, fun h => h⟩
  | cons h l ih =>
    have hrest : ∀ h' ∈ l, Harmless h'.func := fun h' hm => hh h' (List.mem_cons_of_mem h hm)
    rw [callHooks] at hl
    split at hl
    · obtain ⟨⟨ret, t⟩, ht, hl⟩ := bind_ok hl
      obtain ⟨h1, h2⟩ := hh h List.mem_cons_self cp s ret t ht
      simp only at hl
      split at hl
      · cases hl
        exact ⟨h1, h2⟩
      · obtain ⟨h3, h4⟩ := ih hrest hl
        exact ⟨fun u hu => h3 u (h1 u hu), fun hk => h4 (h2 hk)⟩
    · exact ih hrest hl

theorem handleBadCmd_harmless {l : List CmdFunc} (hh : ∀ f ∈ l, Harmless f) :
    Harmless (handleBadCmd l) := by
  intro cp s flag s' hl
  induction l generalizing s with
  | nil =>
    cases hl
    exact ⟨fun _ h => h, fun h => h⟩
  | cons f l ih =>
    have hrest : ∀ f' ∈ l, Harmless f' := fun f' hm => hh f' (List.mem_cons_of_mem f hm)
    obtain ⟨⟨ret, t⟩, ht, hl⟩ := bind_ok hl
    obtain ⟨h1, h2⟩ := hh f List.mem_cons_self cp s ret t ht
    simp only at hl
    split at hl
    · cases hl
      exact ⟨h1, h2⟩
    · obtain ⟨h3, h4⟩ := ih hrest _ hl
      exact ⟨fun u hu => h3 u (h1 u hu), fun hk => h4 (h2 hk)⟩

theorem seek_tame (hc : cmds.Tame) (cmd : Bytes) :
    (cmds.seek cmd).func = cmdQuit ∨ Harmless (cmds.seek cmd).func := by
  unfold Cmds.seek
  cases h : cmds.hCallback.seek cmd with
  | some cb => exact hc.commands cmd cb h
  | none => exact .inr (handleBadCmd_harmless hc.bad)

theorem cmdQuit_spec (hl : cmdQuit cp s = .ok (flag, s')) :
    hasFlag flag returnNull = true ∧ (s.Keyed → s'.Keyed) := by
  unfold cmdQuit at hl
  simp only at hl
  split at hl
  · cases hl
    exact ⟨by decide, Quiet.sendRawInline.still.named.keyed⟩
  · obtain ⟨t, ht, hl⟩ := bind_ok hl
    cases hl
    exact ⟨by decide, fun hk => deluser_keyed (Quiet.sendRawInline.still.named.keyed hk) ht⟩

/-! ### One command -/

theorem openSub_steady {o : Opened} (h : s.openSub u pc = .ok o) : Steady s o.state := by
  obtain ⟨x, i, w, -, -, hopens, hstill, -⟩ := openSub_opens h
  refine Steady.trans ?_ hstill.steady
  cases hopens with
  | same => exact .of_eq rfl rfl rfl le_rfl
  | found => exact .of_eq rfl rfl rfl le_rfl
  | new ht => exact addsubuser_steady ht

theorem cmdSub_steady {o : Opened} (h : s.cmdSub pc = .ok o) : Steady s o.state := by
  unfold cmdSub at h
  split at h
  · exact openSub_steady h
  · cases h
    exact .refl

/-- The user a command is called for: the one of the request, or a new one. -/
theorem preallocate_user {cp' : Callbackp} {pc' : Pc} {sub sub' : Option SubId} (hk : s.Keyed)
    (hu : cp.call_user = pc.guser) (h : s.preallocate cp pc sub = .ok (cp', pc', sub', s')) :
    s'.Keyed ∧ (∀ v, s.users v ≠ none → s'.users v ≠ none) ∧ cp'.call_user = pc'.guser ∧
      (isConnect cp.cmd = false ∧ cp'.call_user = pc.guser ∨ isConnect cp.cmd = true ∧
        ∃ u, cp'.call_user = some u ∧ s.users u = none ∧ s'.users u ≠ none) := by
  obtain ⟨hc, rfl, rfl, -, rfl⟩ | ⟨u, t, x, hc, ht, hx, -, rfl, rfl, rfl⟩ := preallocate_cases h
  · exact ⟨hk, fun _ hv => hv, hu, .inl ⟨hc, hu⟩⟩
  · obtain ⟨htk, hnone, hlive, hkeep⟩ := allocUser_keyed hk ht
    have hn : Named t (t.setUser u { x with transport := pc.transport }) := .setUser hx rfl
    exact ⟨hn.keyed htk, fun v hv => (hn.live v).mpr (hkeep v hv), rfl,
      .inr ⟨hc, u, rfl, hnone, (hn.live u).mpr hlive⟩⟩

/-- A callback either keeps the users or gives its user up. -/
theorem runCallback_tame {cmd : Bytes} {called : Option Ape} (hc : cmds.Tame) (hk : s.Keyed)
    (h : runCallback cmds (cmds.seek cmd) cp s = .ok (flag, called, s')) :
    s'.Keyed ∧ (∀ t u, called = some t → s.users u ≠ none → t.users u ≠ none) ∧
      (hasFlag flag returnNull = true ∨ ∀ u, s.users u ≠ none → s'.users u ≠ none) := by
  obtain ⟨fl, t, ht, hcases⟩ := runCallback_ok h
  obtain ⟨h1, h2⟩ := callHooks_harmless hc.hooks ht
  obtain ⟨-, rfl, hf⟩ | ⟨-, rfl, rfl, rfl⟩ := hcases
  · rcases seek_tame hc cmd with hq | hh
    · rw [hq] at hf
      obtain ⟨hnull, hkeyed⟩ := cmdQuit_spec hf
      refine ⟨hkeyed (h2 hk), fun t' u he => ?_, .inl hnull⟩
      cases he
      exact h1 u
    · obtain ⟨h3, h4⟩ := hh cp t flag s' hf
      refine ⟨h4 (h2 hk), fun t' u he => ?_, .inr fun u hu => h3 u (h1 u hu)⟩
      cases he
      exact h1 u
  · refine ⟨h2 hk, fun t' u he => ?_, .inr h1⟩
    cases he

/-- What a command that was run leaves. -/
structure Ran (s : Ape) (ijson : JsonItem) (cmd : Bytes) (guser : Option UserId) (d : Done)
    (c : Call) : Prop where
  call : d.call = some c
  object : c.object = ijson
  before : c.before = s
  keyed : d.state.Keyed
  user : isConnect cmd = false ∧ c.call_user = guser ∨
    isConnect cmd = true ∧ ∃ u, c.call_user = some u ∧ s.users u = none
  called : ∀ t u, c.called = some t → c.call_user = some u → t.users u ≠ none
  next : d.ret = none → hasFlag c.flag returnNull = false ∧ d.pc.guser = c.call_user ∧
    ∃ u, c.call_user = some u ∧ d.state.users u ≠ none

theorem execCmd_ran {cmd : Bytes} {d : Done} (hc : cmds.Tame) (hk : s.Keyed)
    (hlive : ∀ u, pc.guser = some u → s.users u ≠ none)
    (h : execCmd cmds ijson cmd pc iuser s = .ok d) :
    ∃ c, Ran s ijson cmd pc.guser d c ∧ c.need = (cmds.seek cmd).need := by
  obtain ⟨o, ho, h⟩ := bind_ok h
  obtain ⟨t₁, ht₁, h⟩ := bind_ok h
  obtain ⟨chl, -, h⟩ := bind_ok h
  obtain ⟨⟨cp, pc', sub, t₂⟩, ht₂, h⟩ := bind_ok h
  obtain ⟨⟨flag, called, t₃⟩, ht₃, h⟩ := bind_ok h
  obtain ⟨⟨ret, pc'', iuser', t₄⟩, ht₄, h⟩ := bind_ok h
  cases h
  have hn : Steady s t₁ := (cmdSub_steady ho).trans (setChl_spec ht₁).1.still.steady
  obtain ⟨hk₂, hkeep₂, hguser, huser⟩ := preallocate_user (hn.keyed hk) rfl ht₂
  obtain ⟨hk₃, hcalled, hgive⟩ := runCallback_tame hc hk₂ ht₃
  obtain ⟨t, hq, -, hend⟩ := finishCmd_spec ht₄
  -- whoever the command is called for is live when its callback runs
  have hlive₂ : ∀ u, cp.call_user = some u → t₂.users u ≠ none := by
    intro u hu
    obtain ⟨-, he⟩ | ⟨-, v, hv, -, hvlive⟩ := huser
    · exact hkeep₂ u ((hn.live u).mpr (hlive u (he ▸ hu)))
    · rw [hu] at hv
      cases hv
      exact hvlive
  have hfinal : Named t₃ t₄ := by
    obtain ⟨-, -, -, -, rfl⟩ | ⟨u, i, y, -, -, -, -, -, -, rfl⟩ := hend
    · exact hq.still.named
    · exact hq.still.named.trans ⟨rfl, fun _ => rfl, le_rfl⟩
  refine ⟨_, ⟨rfl, rfl, rfl, hfinal.keyed hk₃, ?_, fun t' u ht' hu => ?_, fun hret => ?_⟩, rfl⟩
  · obtain ⟨hcon, he⟩ | ⟨hcon, u, hu, hnone, -⟩ := huser
    · exact .inl ⟨hcon, he⟩
    · refine .inr ⟨hcon, u, hu, ?_⟩
      by_contra hne
      exact (hn.live u).mpr hne hnone
  · exact hcalled t' u ht' (hlive₂ u hu)
  · obtain ⟨-, hne, -⟩ | ⟨u, i, y, hnull, hu, -, -, rfl, -, -⟩ := hend
    · exact absurd hret hne
    · refine ⟨hnull, hguser.symm, u, hguser.trans hu, (hfinal.live u).mpr ?_⟩
      rcases hgive with hg | hg
      · rw [hnull] at hg
        cases hg
      · exact hg u (hlive₂ u (hguser.trans hu))

/-- The user an object names is live. -/
theorem identify_live (hk : s.Keyed) (hlive : ∀ u, pc.guser = some u → s.users u ≠ none)
    (h : identify s ijson pc = some u) : s.users u ≠ none := by
  unfold identify at h
  split at h
  · next v hv =>
    cases h
    exact hlive u hv
  · obtain ⟨sessid, -, hs⟩ := Option.bind_eq_some_iff.mp h
    unfold seekUserId at hs
    split at hs
    · cases hs
    · exact hk.live hs

/-- `process_cmd` refuses an object, or runs its command. -/
theorem processCmd_ran {d : Done} (hc : cmds.Tame) (hk : s.Keyed)
    (hlive : ∀ u, pc.guser = some u → s.users u ≠ none)
    (h : processCmd cmds ijson pc iuser s = .ok d) :
    (d.call = none ∧ d.ret ≠ none ∧ d.state.Keyed) ∨
    ∃ cmd c, jstr ijson.child (bytes "cmd") = some cmd ∧
      Ran s ijson cmd (identify s ijson pc) d c ∧ c.need = (cmds.seek cmd).need ∧
      (c.need ≠ .nothing → identify s ijson pc ≠ none) := by
  unfold processCmd at h
  split at h
  · cases h
    exact .inl ⟨rfl, by simp, Quiet.sendRawInline.still.named.keyed hk⟩
  · next cmd hcmd =>
    simp only at h
    split at h
    · cases h
      exact .inl ⟨rfl, by simp, Quiet.sendRawInline.still.named.keyed hk⟩
    · next hneed =>
      obtain ⟨c, hran, hcn⟩ := execCmd_ran hc hk (fun u hu => identify_live hk hlive hu) h
      refine .inr ⟨cmd, c, hcmd, hran, hcn, fun hne he => hneed ⟨hcn ▸ hne, he⟩⟩

/-! ### The request -/

/-- The loop of `checkcmd` between two objects, after `done` of them. -/
structure Running (done : List JsonItem) (calls : List Call) (pc : Pc) (s : Ape) : Prop where
  objects : calls.map Call.object = done
  identified : Identified calls
  keyed : s.Keyed
  kept : ∀ c ∈ calls, hasFlag c.flag returnNull = false
  live : ∀ u, pc.guser = some u → s.users u ≠ none
  known : ∀ u, pc.guser = some u → ∃ c ∈ calls, c.names u ∨ c.creates u
  last : ∀ c, calls.getLast? = some c → pc.guser ≠ none ∧ c.call_user = pc.guser

/-- The user of a request is the one its first object names. -/
theorem Running.identify {done : List JsonItem} {calls : List Call} (hr : Running done calls pc s)
    {c : Call} (hlast : calls.getLast? = some c) : ApeServer.identify s ijson pc = pc.guser := by
  obtain ⟨hne, -⟩ := hr.last c hlast
  obtain ⟨u, hu⟩ := Option.ne_none_iff_exists'.mp hne
  simp [ApeServer.identify, hu]

/-- What an object adds to the commands of its request. -/
theorem Running.snoc {done : List JsonItem} {calls : List Call} {cmd : Bytes} {c : Call}
    {d : Done} (hr : Running done calls pc s) (hcmd : jstr ijson.child (bytes "cmd") = some cmd)
    (hran : Ran s ijson cmd (ApeServer.identify s ijson pc) d c)
    (hneed : c.need ≠ .nothing → ApeServer.identify s ijson pc ≠ none) :
    Identified (calls ++ [c]) ∧ ∀ u, c.call_user = some u →
      ∃ e ∈ calls ++ [c], e.names u ∨ e.creates u := by
  have hconnects : c.connects ↔ isConnect cmd = true := by
    simp [Call.connects, hran.object, hcmd]
  have hknown : ∀ u, c.call_user = some u → ∃ e ∈ calls ++ [c], e.names u ∨ e.creates u := by
    intro u hu
    obtain ⟨-, he⟩ | ⟨hcon, v, hv, hnone⟩ := hran.user
    · rw [hu] at he
      cases hg : pc.guser with
      | some v =>
        simp only [ApeServer.identify, hg, Option.some.injEq] at he
        subst he
        obtain ⟨e, hmem, hfrom⟩ := hr.known u hg
        exact ⟨e, List.mem_append_left _ hmem, hfrom⟩
      | none =>
        simp only [ApeServer.identify, hg] at he
        obtain ⟨sessid, hs, hseek⟩ := Option.bind_eq_some_iff.mp he.symm
        refine ⟨c, by simp, .inl ⟨sessid, ?_, ?_⟩⟩
        · rw [hran.object]
          exact hs
        · unfold seekUserId at hseek
          split at hseek
          · cases hseek
          · next hlen =>
            rw [hran.before]
            exact ⟨not_not.mp hlen, hseek⟩
    · rw [hu] at hv
      cases hv
      refine ⟨c, by simp, .inr ⟨hconnects.mpr hcon, hu, ?_⟩⟩
      rw [hran.before]
      exact hnone
  refine ⟨hr.identified.snoc (fun hsess t ht => ?_) (fun e he hcon => ?_) hr.kept, hknown⟩
  · have hsome : c.call_user ≠ none := by
      obtain ⟨-, he⟩ | ⟨-, v, hv, -⟩ := hran.user
      · rw [he]
        exact hneed (by simp [hsess])
      · simp [hv]
    obtain ⟨u, hu⟩ := Option.ne_none_iff_exists'.mp hsome
    exact ⟨u, hu, hran.called t u ht hu, hknown u hu⟩
  · obtain ⟨-, hlast⟩ := hr.last e he
    obtain ⟨-, hu⟩ | ⟨hcon', -⟩ := hran.user
    · rw [hlast, hu, hr.identify he]
    · exact absurd (hconnects.mpr hcon') hcon

theorem getLast?_snoc {α : Type} (l : List α) (a : α) : (l ++ [a]).getLast? = some a := by simp

theorem checkLoop_identified {rest done : List JsonItem} {calls : List Call} {r : Checked}
    (hc : cmds.Tame) (hr : Running done calls pc s)
    (h : checkLoop cmds rest pc iuser calls s = .ok r) :
    Identified r.calls ∧ r.state.Keyed ∧ r.calls.map Call.object <+: done ++ rest := by
  induction rest generalizing done calls pc iuser s with
  | nil =>
    cases h
    exact ⟨hr.identified, hr.keyed, by simp [hr.objects]⟩
  | cons ijson rest ih =>
    obtain ⟨queued, -, h⟩ := bind_ok h
    split at h
    · obtain ⟨u, -, h⟩ := bind_ok h
      obtain ⟨x, hx, h⟩ := bind_ok h
      cases h
      have hn : Named s (s.setUser u { x with cmdqueue := ijson :: rest }) :=
        .setUser (user_ok hx) rfl
      refine ⟨hr.identified, hn.keyed hr.keyed, ?_⟩
      rw [hr.objects]
      exact List.prefix_append _ _
    · obtain ⟨d, hd, h⟩ := bind_ok h
      obtain ⟨hnone, hret, hk⟩ | ⟨cmd, c, hcmd, hran, -, hneed⟩ :=
        processCmd_ran hc hr.keyed hr.live hd
      · split at h
        · cases h
          refine ⟨by simpa [hnone] using hr.identified, hk, ?_⟩
          simp [hnone, hr.objects]
        · next hret' => exact absurd hret' hret
      · obtain ⟨hident, hknown⟩ := hr.snoc hcmd hran hneed
        have hobj : (calls ++ [c]).map Call.object = done ++ [ijson] := by
          simp [hr.objects, hran.object]
        split at h
        · cases h
          simp only [hran.call, Option.toList_some]
          refine ⟨hident, hran.keyed, ?_⟩
          exact hobj ▸ ⟨rest, by simp⟩
        · next hret =>
          simp only [hran.call, Option.toList_some] at h
          obtain ⟨hnull, hguser, u, hu, hlive⟩ := hran.next hret
          have hpc : d.next.guser = c.call_user := d.next_guser.trans hguser
          have hrun : Running (done ++ [ijson]) (calls ++ [c]) d.next d.state := by
            refine ⟨hobj, hident, hran.keyed, fun e he => ?_, fun v hv => ?_, fun v hv => ?_,
              fun e he => ?_⟩
            · rcases List.mem_append.mp he with he | he
              · exact hr.kept e he
              · rw [List.mem_singleton.mp he]
                exact hnull
            · rw [hpc, hu] at hv
              cases hv
              exact hlive
            · rw [hpc] at hv
              exact hknown v hv
            · rw [getLast?_snoc] at he
              cases he
              exact ⟨by rw [hpc, hu]; simp, hpc.symm⟩
          have := ih hrun h
          rwa [List.append_assoc, List.singleton_append] at this

theorem checkcmd_identified {objects : List JsonItem} {client : Fd} {host ip : Bytes}
    {transport : Transport} {r : Checked} (hc : cmds.Tame) (hk : s.Keyed)
    (h : checkcmd cmds objects client host ip transport s = .ok r) :
    Identified r.calls ∧ r.state.Keyed ∧ r.calls.map Call.object <+: objects := by
  unfold checkcmd at h
  split at h
  · cases h
    exact ⟨.nil, Quiet.sendRawInline.still.named.keyed hk, by simp⟩
  · have hrun : Running [] [] ⟨none, none, client, host, ip, transport⟩ s :=
      ⟨rfl, .nil, hk, by simp, by simp, by simp, by simp⟩
    simpa using checkLoop_identified hc hrun h

/-! ### Events -/

theorem foldl_send_quiet {fd : Fd} (l : List ℕ) :
    Quiet s (l.foldl (fun s _ => (s.send fd .other).2) s) := by
  induction l generalizing s with
  | nil => exact .refl
  | cons n l ih => exact Quiet.send.trans ih

theorem setCo_steady {fd : Fd} {k : Socket} : Steady s (s.setCo fd k) :=
  .of_eq rfl rfl rfl le_rfl

theorem handshake_steady {fd : Fd} {host : Bytes} {hlines : List Http.HeaderLine} :
    Steady s (s.handshake fd host hlines) := by
  unfold handshake
  split
  · exact setCo_steady
  · exact (foldl_send_quiet _).still.steady.trans setCo_steady

theorem checkrecv_keyed {fd : Fd} {r : HttpRequest} {sub : Option SubId} (hc : cmds.Tame)
    (hk : s.Keyed) (h : s.checkrecv cmds fd r = .ok (sub, s')) : s'.Keyed := by
  unfold checkrecv at h
  split at h
  · cases h
    exact setCo_steady.keyed hk
  · obtain ⟨uri, -, h⟩ := bind_ok h
    split at h
    · cases h
      exact handshake_steady.keyed hk
    · split at h
      · cases h
        exact ((Quiet.send.trans .send).trans .safeShutdown).still.named.keyed hk
      · obtain ⟨c, hcheck, h⟩ := bind_ok h
        have hkc := (checkcmd_identified hc hk hcheck).2.1
        split at h
        · cases h
          exact Quiet.safeShutdown.still.named.keyed hkc
        · cases h
          exact hkc

theorem completeFor_steady {o : Option UserId} (h : s.completeFor i o = .ok s') : Steady s s' := by
  unfold completeFor at h
  split at h
  · obtain ⟨x, -, h⟩ := bind_ok h
    exact (transportDataCompletlySent_lasting h).toSteady
  · cases h
    exact .refl

theorem apeSent_steady {fd : Fd} (h : s.apeSent fd = .ok s') : Steady s s' := by
  unfold apeSent at h
  split at h
  · cases h
    exact .refl
  · obtain ⟨y, -, h⟩ := bind_ok h
    split at h
    · obtain ⟨t, ht, h⟩ := bind_ok h
      obtain ⟨y', -, h⟩ := bind_ok h
      cases h
      exact (completeFor_steady ht).trans (.of_eq rfl rfl rfl le_rfl)
    · cases h
      exact .refl

theorem apeDisconnect_keyed {fd : Fd} (hk : s.Keyed) (h : s.apeDisconnect fd = .ok s') :
    s'.Keyed := by
  unfold apeDisconnect at h
  split at h
  · cases h
    exact hk
  · next i _ =>
    obtain ⟨y, -, h⟩ := bind_ok h
    split at h
    · cases h
      exact Named.keyed (s := s) ⟨rfl, fun _ => rfl, le_rfl⟩ hk
    · split at h
      · have hk' : (s.setSub i { y with headersSent := false, state := .adied }).Keyed :=
          Named.keyed (s := s) ⟨rfl, fun _ => rfl, le_rfl⟩ hk
        unfold dropTmp at h
        split at h
        · obtain ⟨x, -, h⟩ := bind_ok h
          split at h
          · obtain ⟨t, ht, h⟩ := bind_ok h
            cases h
            exact setCo_steady.keyed (deluser_keyed hk' ht)
          · cases h
            exact hk'
        · cases h
          exact hk'
      · cases h
        exact hk

theorem supersede_steady {tmp sub : Option SubId} (h : s.supersede tmp sub = .ok s') :
    Steady s s' := by
  unfold supersede at h
  split at h
  · split at h
    · obtain ⟨y, -, h⟩ := bind_ok h
      cases h
      exact .of_eq rfl rfl rfl le_rfl
    · cases h
      exact .refl
  · cases h
    exact .refl

theorem step_keyed {e : Event} (hc : cmds.Tame) (hk : s.Keyed) (h : s.step cmds e = .ok s') :
    s'.Keyed := by
  cases e with
  | accept fd ip =>
    simp only [step] at h
    split at h
    · cases h
      exact setCo_steady.keyed hk
    · cases h
  | request fd r =>
    simp only [step] at h
    split at h
    · obtain ⟨⟨sub, t⟩, ht, h⟩ := bind_ok h
      cases h
      exact setCo_steady.keyed (checkrecv_keyed hc hk ht)
    · cases h
  | message fd objects =>
    simp only [step] at h
    split at h
    · split at h
      · obtain ⟨r, hr, h⟩ := bind_ok h
        exact (supersede_steady h).keyed (setCo_steady.keyed (checkcmd_identified hc hk hr).2.1)
      · cases h
    · cases h
  | sent fd =>
    simp only [step] at h
    split at h
    · obtain ⟨t, ht, h⟩ := bind_ok h
      cases h
      have hkt := (setCo_steady.trans (apeSent_steady ht)).keyed hk
      split
      · exact setCo_steady.keyed hkt
      · exact hkt
    · cases h
  | reset fd =>
    simp only [step] at h
    split at h
    · cases h
      exact setCo_steady.keyed hk
    · cases h
  | disconnect fd =>
    simp only [step] at h
    split at h
    · obtain ⟨t, ht, h⟩ := bind_ok h
      cases h
      exact setCo_steady.keyed (apeDisconnect_keyed hk ht)
    · cases h
  | tick => exact tickFrom_keyed hk h
  | clock time =>
    cases h
    exact Named.keyed (s := s) ⟨rfl, fun _ => rfl, le_rfl⟩ hk

theorem init_keyed (rand : List (List.Vector (Fin 16) 32)) (io : ℕ → Bool) (time : ℤ) :
    (init rand io time).Keyed := ⟨.init, fun _ _ => rfl⟩

/-- In every state a server with such commands reaches, every request runs its commands as
the users its own objects name or make. -/
theorem calls_identified {rand : List (List.Vector (Fin 16) 32)} {io : ℕ → Bool} {time : ℤ}
    {objects : List JsonItem} {client : Fd} {host ip : Bytes} {transport : Transport}
    {r : Checked} (hc : cmds.Tame)
    (hs : Reach (step cmds) (fun _ _ => True) (init rand io time) s)
    (h : checkcmd cmds objects client host ip transport s = .ok r) :
    Identified r.calls ∧ r.calls.map Call.object <+: objects := by
  have hk : s.Keyed := hs.keeps Keyed (init_keyed rand io time)
    fun _ _ _ hk _ hl => step_keyed hc hk hl
  obtain ⟨h1, -, h2⟩ := checkcmd_identified hc hk h
  exact ⟨h1, h2⟩

/-! ### The built-in commands -/

theorem adduser_named (h : s.adduser u = .ok s') : Named s s' := by
  obtain ⟨x, hx, h⟩ := bind_ok h
  cases h
  have h1 : Named s (s.setUser u { x with istmp := false }) := .setUser (user_ok hx) rfl
  exact ⟨h1.hSessid, h1.sessid, h1.fresh⟩

theorem cmdConnect_named (cp : Callbackp) (s : Ape) (flag : UInt32) (s' : Ape)
    (h : cmdConnect cp s = .ok (flag, s')) : Named s s' := by
  obtain ⟨u, -, h⟩ := bind_ok h
  obtain ⟨t, ht, h⟩ := bind_ok h
  obtain ⟨x, -, h⟩ := bind_ok h
  obtain ⟨i, -, h⟩ := bind_ok h
  obtain ⟨t', ht', h⟩ := bind_ok h
  obtain ⟨t'', ht'', h⟩ := bind_ok h
  cases h
  have hp := (postRawSub_posted ht').trans (postRaw_posted ht'')
  exact (adduser_named ht).trans (Quiet.of_posted hp).still.named

theorem seek_append {α : Type} {t : Htbl α} {key k : Bytes} {v w : α}
    (h : (t.append key v).seek k = some w) : w = v ∨ t.seek k = some w := by
  unfold Htbl.append Htbl.seek at h
  simp only at h
  split at h
  · exact .inl (Option.some.inj h).symm
  · exact .inr h

/-- A built-in command is one of these. -/
theorem seek_builtins {domain : Bool} {cmd : Bytes} {cb : Callback}
    (h : (builtins domain).seek cmd = some cb) :
    cb = ⟨cmdSession, .sessid⟩ ∨ cb = ⟨cmdLeft, .sessid⟩ ∨ cb = ⟨cmdJoin, .sessid⟩ ∨
      cb = ⟨cmdQuit, .sessid⟩ ∨ cb = ⟨cmdSend, .sessid⟩ ∨ cb = ⟨cmdCheck, .sessid⟩ ∨
      cb = ⟨cmdScript domain, .nothing⟩ ∨ cb = ⟨cmdConnect, .nothing⟩ := by
  unfold builtins at h
  simp only [List.foldl_cons, List.foldl_nil] at h
  rcases seek_append h with h | h
  · exact .inl h
  rcases seek_append h with h | h
  · exact .inr (.inl h)
  rcases seek_append h with h | h
  · exact .inr (.inr (.inl h))
  rcases seek_append h with h | h
  · exact .inr (.inr (.inr (.inl h)))
  rcases seek_append h with h | h
  · exact .inr (.inr (.inr (.inr (.inl h))))
  rcases seek_append h with h | h
  · exact .inr (.inr (.inr (.inr (.inr (.inl h)))))
  rcases seek_append h with h | h
  · exact .inr (.inr (.inr (.inr (.inr (.inr (.inl h))))))
  rcases seek_append h with h | h
  · exact .inr (.inr (.inr (.inr (.inr (.inr (.inr h))))))
  · cases h

theorem plain_tame (domain : Bool) : (Cmds.plain domain).Tame where
  commands cmd cb h := by
    rcases seek_builtins h with rfl | rfl | rfl | rfl | rfl | rfl | rfl | rfl
    · exact .inr (.of_named fun _ _ _ _ h => (cmdSession_spec h).1.still.named)
    · exact .inr (.of_named fun _ _ _ _ h => (cmdLeft_minor h).still.named)
    · exact .inr (.of_named fun _ _ _ _ h => (cmdJoin_minor h).still.named)
    · exact .inl rfl
    · exact .inr (.of_named fun _ _ _ _ h => (Quiet.of_posted (cmdSend_posted h)).still.named)
    · refine .inr (.of_named fun _ _ _ _ h => ?_)
      cases h
      exact .refl
    · exact .inr (.of_named fun _ _ _ _ h => (cmdScript_spec h).1.still.named)
    · exact .inr (.of_named cmdConnect_named)
  hooks h hm := by cases hm
  bad f hm := by cases hm

/-- A command object with a sessid. -/
def commandObject (cmd sessid : Bytes) : JsonItem :=
  (JsonItem.newObject.setStr (bytes "cmd") cmd).setStr (bytes "sessid") sessid

/-- A connection and a `CONNECT` over it, by long polling. -/
def connected : List Event :=
  [.accept 5 (bytes "1.1.1.1"), .request 5
    { host := some (bytes "h"), uri := some (bytes "/0/"), hlines := [],
      data := some [JsonItem.newObject.setStr (bytes "cmd") (bytes "CONNECT")] }]

/-- The first user checks in and leaves; the last object is not looked at. -/
def checkAndQuit : List JsonItem :=
  [commandObject (bytes "CHECK") (List.replicate 32 97), commandObject (bytes "QUIT") [],
    commandObject (bytes "CHECK") []]

theorem calls_identified_quit : ∃ s r, Steps.runs (step (.plain true)) (fun _ _ => True)
    (init sixteenDraws (fun _ => true) 0) connected = some s ∧
      checkcmd (.plain true) checkAndQuit 5 (bytes "h") [] .longpolling s = .ok r ∧
      r.calls.map Call.call_user = [some 0, some 0] ∧ Identified r.calls := by
  have h : ((Steps.runs (step (.plain true)) (fun _ _ => True)
      (init sixteenDraws (fun _ => true) 0) connected).bind fun s =>
        (checkcmd (.plain true) checkAndQuit 5 (bytes "h") [] .longpolling s).toOption.map
          fun r => r.calls.map Call.call_user) = some [some 0, some 0] := by decide +kernel
  obtain ⟨s, hs, h⟩ := Option.bind_eq_some_iff.mp h
  obtain ⟨r, hr, h⟩ := Option.map_eq_some_iff.mp h
  cases hc : checkcmd (.plain true) checkAndQuit 5 (bytes "h") [] .longpolling s with
  | error e => simp [hc, Except.toOption] at hr
  | ok r' =>
    simp only [hc, Except.toOption, Option.some.injEq] at hr
    subst hr
    exact ⟨s, r', hs, hc, h, (calls_identified (plain_tame true) (.of_runs .start hs) hc).1⟩

end Ape

end ApeServer
