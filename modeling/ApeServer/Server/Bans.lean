import ApeServer.Lib.Sweep
import ApeServer.Server.Channel

/-!
# The ban list

`getban` and `rmban` of `channel.c` on the nodes of `chan->banned`, and what they leave of the
list.
-/
namespace ApeServer

open Sock (Bytes)
open Sweep (Cells Cell Verdict swept found)

/-- What `getban` does with a node: an expired ban is freed wherever it is met. -/
def getbanVerdict (time : ℤ) (ip : Bytes) (b : Banned) : Verdict :=
  if b.expire < time then .drop else if b.ip = ip then .stop else .keep

def rmbanVerdict (time : ℤ) (ip : Bytes) (b : Banned) : Verdict :=
  if b.expire < time ∨ b.ip = ip then .drop else .keep

/-- `getban`, with as many rounds as `fuel`. -/
def getban (time : ℤ) (ip : Bytes) (fuel : ℕ) (banned : Cells Banned) :
    Option (Option ℕ × Cells Banned) :=
  banned.walk (getbanVerdict time ip) fuel

def rmban (time : ℤ) (ip : Bytes) (fuel : ℕ) (banned : Cells Banned) : Option (Cells Banned) :=
  (banned.walk (rmbanVerdict time ip) fuel).map Prod.snd

/-- The ban is still on. -/
def Banned.lasts (time : ℤ) (b : Banned) : Bool := time ≤ b.expire

variable {time : ℤ} {ip : Bytes} {b : Banned} {bs : List Banned}

theorem getbanVerdict_stop : getbanVerdict time ip b = .stop ↔ b.ip = ip ∧ time ≤ b.expire := by
  unfold getbanVerdict
  split_ifs with hexp hip
  · constructor
    · intro h
      cases h
    · rintro ⟨-, hle⟩
      omega
  · exact ⟨fun _ => ⟨hip, by omega⟩, fun _ => rfl⟩
  · constructor
    · intro h
      cases h
    · rintro ⟨he, -⟩
      exact absurd he hip

theorem getbanVerdict_drop (h : getbanVerdict time ip b = .drop) : b.lasts time = false := by
  unfold getbanVerdict at h
  split_ifs at h with hexp
  simpa [Banned.lasts] using hexp

theorem rmbanVerdict_ne_stop : rmbanVerdict time ip b ≠ .stop := by
  unfold rmbanVerdict
  split <;> simp

theorem rmbanVerdict_ne_drop : rmbanVerdict time ip b ≠ .drop ↔ b.ip ≠ ip ∧ time ≤ b.expire := by
  unfold rmbanVerdict
  split_ifs with h
  · constructor
    · intro hne
      exact absurd rfl hne
    · rintro ⟨hip, hle⟩
      rcases h with hexp | he
      · omega
      · exact absurd he hip
  · have ⟨hexp, hip⟩ := not_or.mp h
    exact ⟨fun _ => ⟨hip, by omega⟩, fun _ hd => by cases hd⟩

theorem swept_rmban : swept (rmbanVerdict time ip) bs =
    bs.filter fun b => b.ip ≠ ip ∧ time ≤ b.expire := by
  rw [Sweep.swept_eq_filter fun b => rmbanVerdict_ne_stop]
  refine List.filter_congr fun b _ => ?_
  rw [decide_eq_decide]
  exact rmbanVerdict_ne_drop

theorem found_getban_isSome : (found (getbanVerdict time ip) bs).isSome ↔
    ∃ b ∈ bs, b.ip = ip ∧ time ≤ b.expire := by
  rw [Option.isSome_iff_ne_none, ne_eq, Sweep.found_eq_none]
  simp only [ne_eq, not_forall, not_not, getbanVerdict_stop, exists_prop]

/-- The model of `getban` on the list of a channel is the walk over its nodes. -/
theorem seekBan_eq (time : ℤ) (ip : Bytes) (bs : List Banned) : Ape.seekBan time ip bs =
    (found (getbanVerdict time ip) bs, swept (getbanVerdict time ip) bs) := by
  induction bs with
  | nil => rfl
  | cons b bs ih =>
    have hfound : found (getbanVerdict time ip) (b :: bs) =
        if getbanVerdict time ip b = .stop then some b else found (getbanVerdict time ip) bs := by
      by_cases h : getbanVerdict time ip b = .stop <;> simp [found, h]
    rw [Ape.seekBan, hfound, swept, ih]
    by_cases hexp : b.expire < time
    · have hv : getbanVerdict time ip b = .drop := if_pos hexp
      rw [if_pos hexp, hv, if_neg (by decide)]
    · by_cases hip : b.ip = ip
      · have hv : getbanVerdict time ip b = .stop := by
          rw [getbanVerdict, if_neg hexp, if_pos hip]
        rw [if_neg hexp, if_pos hip, hv, if_pos rfl]
      · have hv : getbanVerdict time ip b = .keep := by
          rw [getbanVerdict, if_neg hexp, if_neg hip]
        rw [if_neg hexp, if_neg hip, hv, if_neg (by decide)]

/-- On every ban list `getban` returns a ban exactly when one for the address is still on, and
only expired ones are missing behind it; `rmban` leaves the bans of other addresses that are
still on. -/
theorem bans_kept (banned : Cells Banned) (l : List ℕ) (h : banned.Lists l) (time : ℤ)
    (ip : Bytes) (fuel : ℕ) (hf : l.length < fuel) :
    (∃ r banned' l', getban time ip fuel banned = some (r, banned') ∧ banned'.Lists l' ∧
      (r ≠ none ↔ ∃ b ∈ banned.contents l, b.ip = ip ∧ time ≤ b.expire) ∧
      (∀ p, r = some p → p ∈ l' ∧
        ∃ b, banned'.content p = some b ∧ b.ip = ip ∧ time ≤ b.expire) ∧
      (banned'.contents l').Sublist (banned.contents l) ∧
      (banned'.contents l').filter (Banned.lasts time) =
        (banned.contents l).filter (Banned.lasts time)) ∧
    ∃ banned' l', rmban time ip fuel banned = some banned' ∧ banned'.Lists l' ∧
      banned'.contents l' = (banned.contents l).filter fun b => b.ip ≠ ip ∧ time ≤ b.expire := by
  constructor
  · obtain ⟨r, banned', l', hrun, hl, hcont, hr, hmem⟩ := h.walk (getbanVerdict time ip) hf
    refine ⟨r, banned', l', hrun, hl, ?_, ?_, ?_, ?_⟩
    · rw [← found_getban_isSome, ← hr]
      cases r with
      | none => simp
      | some p =>
        obtain ⟨c, hc⟩ := Option.ne_none_iff_exists'.mp (hl.live p (hmem p rfl))
        simp [Cells.content, hc]
    · rintro p rfl
      obtain ⟨c, hc⟩ := Option.ne_none_iff_exists'.mp (hl.live p (hmem p rfl))
      have hcontent : banned'.content p = some c.val := by rw [Cells.content, hc]; rfl
      rw [Option.bind_some, hcontent] at hr
      exact ⟨hmem p rfl, c.val, hcontent, getbanVerdict_stop.mp (Sweep.found_spec hr.symm).2⟩
    · rw [hcont]
      exact Sweep.swept_sublist _
    · rw [hcont]
      exact Sweep.filter_swept (fun b => getbanVerdict_drop) _
  · obtain ⟨r, banned', l', hrun, hl, hcont, -, -⟩ := h.walk (rmbanVerdict time ip) hf
    refine ⟨banned', l', ?_, hl, hcont.trans swept_rmban⟩
    rw [rmban, hrun]
    rfl

/-- An expired ban, one that is on, and another one that has expired. -/
def threeBans : Cells Banned where
  head := some 1
  mem
    | 1 => some ⟨⟨bytes "1.1.1.1", bytes "flood", 5⟩, some 2⟩
    | 2 => some ⟨⟨bytes "1.1.1.1", bytes "spam", 50⟩, some 3⟩
    | 3 => some ⟨⟨bytes "2.2.2.2", bytes "spam", 9⟩, none⟩
    | _ => none

theorem threeBans_lists : threeBans.Lists [1, 2, 3] := by
  refine ⟨⟨rfl, rfl, rfl, rfl⟩, by decide, ?_⟩
  intro p hp
  simp only [List.mem_cons, List.not_mem_nil, or_false] at hp
  rcases hp with rfl | rfl | rfl <;> exact fun h => by cases h

theorem bans_kept_three : ∃ r banned' l',
    getban 10 (bytes "1.1.1.1") 4 threeBans = some (r, banned') ∧ r ≠ none ∧
      (banned'.contents l').Sublist (threeBans.contents [1, 2, 3]) := by
  obtain ⟨⟨r, banned', l', hrun, -, hiff, -, hsub, -⟩, -⟩ :=
    bans_kept threeBans [1, 2, 3] threeBans_lists 10 (bytes "1.1.1.1") 4 (by decide)
  refine ⟨r, banned', l', hrun, hiff.mpr ?_, hsub⟩
  exact ⟨⟨bytes "1.1.1.1", bytes "spam", 50⟩, by simp [Cells.contents, Cells.content, threeBans],
    rfl, by decide⟩

end ApeServer
