import Xinu.Lfs.Open
import Xinu.Lib.Runs

/-!
# Opens that stay distinct

The open files have different entries and different names, and the directory has every name once, in
every run in which each `lfsopen` that has waited finds its entry still free and its name still not
open (`opens_ok`). What it has found before it waited is not looked at again, and another process
may have changed it (`opens_shared`).
-/

namespace Xinu

/-- No two open files share an entry or a name, and no two files of the directory share a name. -/
def Distinct (s : LfsTable) : Prop :=
  (s.opened.map Prod.fst).Nodup ∧ (s.opened.map Prod.snd).Nodup ∧ (s.lf_dir.map Ldentry.ld_name).Nodup

/-- What `lfsopen` has found before it waited is still true: the entry is free, and the name is not open. -/
def LfsTable.StillFree (s : LfsTable) (o : Opening) : Prop :=
  (s.lfltab o.lfnext).lfused = false ∧ ∀ i < Nlfl, (s.lfltab i).lfused = true → (s.lfltab i).lfname ≠ o.name

/-- A call of `lfsopen` that has waited and is about to claim its entry has not been overtaken by
another one. -/
def NotOvertaken (s : LfsTable) : LfsEvent → Prop
  | .resumeOpen k => ∀ o, s.lf_mutex.woken[k]? = some o →
    s.lf_dirpresent → (LfsTable.place s.lf_dir o).isSome → s.StillFree o
  | .diskRead ok =>
    ∀ o dir, s.reading = some o → s.sector = some dir → ok → (LfsTable.place dir o).isSome → s.StillFree o
  | _ => True

/-- The comparison of `lfsopen` finds equal names. -/
theorem sameName_iff (a b : CString) : sameName a b = true ↔ a = b := by
  induction a generalizing b with
  | nil => simp [sameName, eq_comm]
  | cons n nam ih =>
    cases b with
    | nil => simp [sameName]
    | cons c cmp =>
      unfold sameName
      split_ifs with h
      · rw [ih, h, List.cons.injEq, and_iff_right rfl]
      · simp [h]

section

variable {s s' : LfsTable} {o : Opening} {pid : ℤ} {name mode : CString}
  {i j k ldptr : ℕ} {dir dir' : List Ldentry}

/-- The search finds no open file of the name, and an entry that is free. -/
theorem searchOpen_spec {tab : ℕ → Lflcblk} {is : List ℕ}
    {lfnext r : Option ℕ} (h : LfsTable.searchOpen tab name is lfnext = some r) :
    (∀ i ∈ is, (tab i).lfused = true → (tab i).lfname ≠ name) ∧
    (∀ j, r = some j → lfnext = some j ∨ (j ∈ is ∧ (tab j).lfused = false)) := by
  -- By induction on the entries that are still to be searched.
  induction is generalizing lfnext with
  | nil =>
    obtain rfl := Option.some.inj h
    exact ⟨nofun, fun j hj => .inl hj⟩
  | cons i is ih =>
    unfold LfsTable.searchOpen at h
    by_cases hused : (tab i).lfused = true
    · rw [if_neg (not_not.mpr hused)] at h
      by_cases hname : sameName name (tab i).lfname = true
      · rw [if_pos hname] at h
        cases h
      rw [if_neg hname] at h
      obtain ⟨hn, hf⟩ := ih h
      refine ⟨List.forall_mem_cons.mpr ⟨fun _ he => hname ((sameName_iff _ _).mpr he.symm), hn⟩,
        fun j hj => ?_⟩
      exact (hf j hj).imp_right fun hj => ⟨List.mem_cons_of_mem _ hj.1, hj.2⟩
    · rw [if_pos hused] at h
      obtain ⟨hn, hf⟩ := ih h
      refine ⟨List.forall_mem_cons.mpr ⟨fun h => absurd h hused, hn⟩, fun j hj => ?_⟩
      rcases hf j hj with hj | hj
      -- The first free entry is kept; a later one does not take its place.
      · by_cases hnone : lfnext = none
        · rw [if_pos hnone] at hj
          obtain rfl := Option.some.inj hj
          exact .inr ⟨List.mem_cons_self, Bool.eq_false_iff.mpr hused⟩
        · rw [if_neg hnone] at hj
          exact .inl hj
      · exact .inr ⟨List.mem_cons_of_mem _ hj.1, hj.2⟩

/-- The tests before the wait find a free entry and a name that is not open. -/
theorem check_spec (h : s.check pid name mode = some o) : o.lfnext < Nlfl ∧ s.StillFree o := by
  unfold LfsTable.check at h
  split_ifs at h
  cases hm : lfgetmode mode with
  | none => simp [hm] at h
  | some mbits =>
    cases hs : LfsTable.searchOpen s.lfltab name (List.range Nlfl) none with
    | none => simp [hm, hs] at h
    | some r =>
      cases r with
      | none => simp [hm, hs] at h
      | some lfnext =>
        rw [hm, hs] at h
        obtain rfl := Option.some.inj h
        obtain ⟨hn, hf⟩ := searchOpen_spec hs
        rcases hf lfnext rfl with hf | ⟨hf, hfree⟩
        · cases hf
        · exact ⟨List.mem_range.mp hf, hfree, fun i hi => hn i (List.mem_range.mpr hi)⟩

/-- A file that is new in the directory has a new name. -/
theorem place_nodup (h : LfsTable.place dir o = some (ldptr, dir')) (hd : (dir.map Ldentry.ld_name).Nodup) :
    (dir'.map Ldentry.ld_name).Nodup := by
  unfold LfsTable.place at h
  cases hf : dir.findIdx? fun ldptr => sameName o.name ldptr.ld_name with
  | none =>
    rw [hf] at h
    dsimp only at h
    split_ifs at h
    obtain ⟨rfl, rfl⟩ := Prod.mk.inj (Option.some.inj h)
    rw [List.map_append, List.nodup_append]
    refine ⟨hd, by simp, fun a ha b hb => ?_⟩
    obtain ⟨ld, hld, rfl⟩ := List.mem_map.mp ha
    obtain rfl : b = o.name := by simpa using hb
    have hne := List.findIdx?_eq_none_iff.mp hf ld hld
    exact fun he => absurd ((sameName_iff _ _).mpr he.symm) (by simp [hne])
  | some i =>
    rw [hf] at h
    dsimp only at h
    split_ifs at h
    obtain ⟨rfl, rfl⟩ := Prod.mk.inj (Option.some.inj h)
    exact hd

end

/-- The invariant: the entries in use are those of the open files, with their names, and these are
different. -/
structure OpensOk (s : LfsTable) : Prop where
  /-- An open file has its control block, in use, with its name. -/
  opened : ∀ i name, (i, name) ∈ s.opened → i < Nlfl ∧ (s.lfltab i).lfused = true ∧ (s.lfltab i).lfname = name
  /-- A control block in use is that of an open file. -/
  used : ∀ i, (s.lfltab i).lfused = true → ∃ name, (i, name) ∈ s.opened
  /-- The open files are different. -/
  distinct : Distinct s
  /-- The names in the directory on disk are different. -/
  sector : ∀ dir, s.sector = some dir → (dir.map Ldentry.ld_name).Nodup
  /-- The count of the mutex agrees with its waiting processes. -/
  mutex : s.lf_mutex.Ok
  /-- Who waits has found one of the control blocks free. -/
  blocked : ∀ o ∈ s.lf_mutex.blocked, o.lfnext < Nlfl
  /-- The call that reads the directory has found one of the control blocks. -/
  reading : ∀ o, s.reading = some o → o.lfnext < Nlfl

/-- No file is open at first. -/
theorem opensOk_booted (dskdev : ℤ) {sector : Option (List Ldentry)}
    (hs : ∀ dir, sector = some dir → (dir.map Ldentry.ld_name).Nodup) :
    OpensOk (.booted dskdev sector) where
  opened := nofun
  used := nofun
  distinct := ⟨List.nodup_nil, List.nodup_nil, List.nodup_nil⟩
  sector := hs
  mutex := Semaphore.Ok.create (by decide)
  blocked := nofun
  reading := nofun

namespace OpensOk

variable {s s' : LfsTable} {o : Opening} {i k : ℕ} {pid : ℤ} {dirty : Bool}

/-- The semaphore of the directory does not matter, if the calls that wait for it have found entries. -/
theorem setMutex (h : OpensOk s) {sem : Semaphore Opening}
    (hs : sem.Ok) (hb : ∀ o ∈ sem.blocked, o.lfnext < Nlfl) :
    OpensOk { s with lf_mutex := sem } :=
  { h with
    mutex := hs
    blocked := hb }

/-- A call that leaves the mutex keeps the invariant. -/
theorem signal (h : OpensOk s) : OpensOk { s with lf_mutex := s.lf_mutex.signal } :=
  h.setMutex h.mutex.signal (h.mutex.blocked_signal ▸ h.blocked)

/-- The semaphore of a file does not matter. -/
theorem setFileMutex (h : OpensOk s) (i : ℕ) (sem : Semaphore ℤ) :
    OpensOk { s with lfltab := Function.update s.lfltab i { s.lfltab i with lfmutex := sem } } := by
  have hused : ∀ j, (Function.update s.lfltab i { s.lfltab i with lfmutex := sem } j).lfused =
      (s.lfltab j).lfused := by
    intro j
    by_cases hj : j = i
    · rw [hj, Function.update_self]
    · rw [Function.update_of_ne hj]
  have hname : ∀ j, (Function.update s.lfltab i { s.lfltab i with lfmutex := sem } j).lfname =
      (s.lfltab j).lfname := by
    intro j
    by_cases hj : j = i
    · rw [hj, Function.update_self]
    · rw [Function.update_of_ne hj]
  exact { h with
    opened := fun j name hj => ⟨(h.opened j name hj).1, (hused j).trans (h.opened j name hj).2.1,
      (hname j).trans (h.opened j name hj).2.2⟩
    used := fun j hj => h.used j ((hused j).symm.trans hj) }

/-- A call claims an entry that is still free, for a name that is still not open. -/
theorem claim (h : OpensOk s) (ho : o.lfnext < Nlfl)
    (hfree : (LfsTable.place s.lf_dir o).isSome → s.StillFree o) : OpensOk (s.claim o) := by
  unfold LfsTable.claim
  cases hp : LfsTable.place s.lf_dir o with
  | none => exact h.signal
  | some r =>
    obtain ⟨ldptr, dir⟩ := r
    obtain ⟨hnot, hnames⟩ := hfree (hp ▸ rfl)
    obtain ⟨hfst, hsnd, hdir⟩ := h.distinct
    -- the entry and the name are new
    have hentry : ∀ j name, (j, name) ∈ s.opened → j ≠ o.lfnext := fun j name hj he => by
      have := (h.opened j name hj).2.1
      rw [he, hnot] at this
      cases this
    have hname : ∀ j name, (j, name) ∈ s.opened → name ≠ o.name := fun j name hj he =>
      hnames j (h.opened j name hj).1 (h.opened j name hj).2.1 ((h.opened j name hj).2.2.trans he)
    refine ⟨fun j name hj => ?_, fun j hj => ?_, ⟨?_, ?_, place_nodup hp hdir⟩,
      h.sector, h.signal.mutex, h.signal.blocked, h.reading⟩
    · rcases List.mem_append.mp hj with hj | hj
      · dsimp only
        rw [Function.update_of_ne (hentry j name hj)]
        exact h.opened j name hj
      · obtain ⟨rfl, rfl⟩ := Prod.mk.inj (List.mem_singleton.mp hj)
        dsimp only
        rw [Function.update_self]
        exact ⟨ho, rfl, rfl⟩
    · by_cases hjo : j = o.lfnext
      · exact ⟨o.name, hjo ▸ List.mem_append_right _ (List.mem_singleton_self _)⟩
      · dsimp only at hj
        rw [Function.update_of_ne hjo] at hj
        obtain ⟨name, hm⟩ := h.used j hj
        exact ⟨name, List.mem_append_left _ hm⟩
    · dsimp only
      rw [List.map_append, List.nodup_append]
      refine ⟨hfst, List.nodup_singleton _, fun a ha b hb => ?_⟩
      obtain ⟨⟨j, name⟩, hm, rfl⟩ := List.mem_map.mp ha
      rw [List.mem_singleton.mp hb]
      exact hentry j name hm
    · dsimp only
      rw [List.map_append, List.nodup_append]
      refine ⟨hsnd, List.nodup_singleton _, fun a ha b hb => ?_⟩
      obtain ⟨⟨j, name⟩, hm, rfl⟩ := List.mem_map.mp ha
      rw [List.mem_singleton.mp hb]
      exact hname j name hm

/-- A call that gets the mutex keeps the invariant, if nobody has taken its control block. -/
theorem enter (h : OpensOk s) (ho : o.lfnext < Nlfl)
    (hfree : s.lf_dirpresent → (LfsTable.place s.lf_dir o).isSome → s.StillFree o) : OpensOk (s.enter o) := by
  unfold LfsTable.enter
  split_ifs with hp
  · exact h.claim ho (hfree hp)
  · exact { h with reading := fun o' ho' => Option.some.inj ho' ▸ ho }

/-- A call of `lfsopen` that does not wait claims an entry that it has just found. -/
theorem lfsopen (h : OpensOk s) (pid : ℤ) (name mode : CString) : OpensOk (s.lfsopen pid name mode) := by
  unfold LfsTable.lfsopen
  cases hc : s.check pid name mode with
  | none => exact h
  | some o =>
    obtain ⟨ho, hfree⟩ := check_spec hc
    dsimp only
    by_cases hgo : (s.lf_mutex.wait o).1 = true
    · rw [if_pos hgo]
      have hb : ∀ o' ∈ (s.lf_mutex.wait o).2.blocked, o'.lfnext < Nlfl :=
        Semaphore.blocked_wait_go hgo ▸ h.blocked
      exact (h.setMutex h.mutex.wait hb).enter ho fun _ _ => hfree
    · rw [if_neg hgo]
      refine h.setMutex h.mutex.wait ?_
      rw [Semaphore.blocked_wait_block (Bool.eq_false_iff.mpr hgo)]
      exact List.forall_mem_append.mpr ⟨h.blocked, by simpa using ho⟩

/-- A call that has waited for the mutex goes on. -/
theorem resumeOpen (h : OpensOk s) (hC : NotOvertaken s (.resumeOpen k)) (hr : s.resumeOpen k = some s') :
    OpensOk s' := by
  obtain ⟨⟨o, sem⟩, hw, rfl⟩ := Option.map_eq_some_iff.mp hr
  obtain ⟨o', hk, he⟩ := Option.map_eq_some_iff.mp hw
  obtain ⟨rfl, rfl⟩ := Prod.mk.inj he
  have hb : ∀ o ∈ (⟨s.lf_mutex.count, s.lf_mutex.waiting,
      s.lf_mutex.woken.eraseIdx k⟩ : Semaphore Opening).blocked, o.lfnext < Nlfl := by
    intro o ho
    rcases List.mem_append.mp ho with ho | ho
    · exact h.blocked o (List.mem_append_left _ (List.mem_of_mem_eraseIdx ho))
    · exact h.blocked o (List.mem_append_right _ ho)
  have ho : o'.lfnext < Nlfl := h.blocked o' (List.mem_append_left _ (List.mem_of_getElem? hk))
  exact (h.setMutex (h.mutex.resume hw) hb).enter ho (hC o' hk)

/-- The end of the read of the directory keeps the invariant, if the call has not been overtaken. -/
theorem diskRead (h : OpensOk s) {ok : Bool} (hC : NotOvertaken s (.diskRead ok))
    (hr : s.diskRead ok = some s') : OpensOk s' := by
  obtain ⟨o, ho, rfl⟩ := Option.map_eq_some_iff.mp hr
  have hdone : OpensOk { s with reading := none } := { h with reading := nofun }
  dsimp only
  cases hd : if ok then s.sector else none with
  | none => exact hdone.signal
  | some dir =>
    obtain ⟨hok, hs⟩ := Option.ite_none_right_eq_some.mp hd
    have hread : OpensOk { s with reading := none, lf_dir := dir, lf_dirpresent := true } :=
      { hdone with distinct := ⟨h.distinct.1, h.distinct.2.1, h.sector dir hs⟩ }
    exact hread.claim (h.reading o ho) (hC o dir ho hs hok)

/-- A file that is closed leaves its control block, and keeps the invariant. -/
theorem free (h : OpensOk s) (i : ℕ) : OpensOk (s.free i) := by
  obtain ⟨hfst, hsnd, hdir⟩ := h.distinct
  have hsub : (s.opened.filter fun o => decide (o.1 ≠ i)).Sublist s.opened := List.filter_sublist
  refine { h with opened := fun j name hj => ?_, used := fun j hj => ?_,
                  distinct := ⟨(hsub.map _).nodup hfst, (hsub.map _).nodup hsnd, hdir⟩ }
  · obtain ⟨hm, hne⟩ := List.mem_filter.mp hj
    have hne : j ≠ i := of_decide_eq_true hne
    dsimp only [LfsTable.free]
    rw [Function.update_of_ne hne]
    exact h.opened j name hm
  · by_cases hji : j = i
    · rw [hji] at hj
      dsimp only [LfsTable.free] at hj
      rw [Function.update_self] at hj
      cases hj
    · dsimp only [LfsTable.free] at hj
      rw [Function.update_of_ne hji] at hj
      obtain ⟨name, hm⟩ := h.used j hj
      exact ⟨name, List.mem_filter.mpr ⟨hm, decide_eq_true hji⟩⟩

/-- A call of `lflclose` has the mutex of the file. -/
theorem closing (h : OpensOk s) : OpensOk (s.closing pid i dirty) := by
  unfold LfsTable.closing
  by_cases hused : (s.lfltab i).lfused = true
  · rw [if_neg (not_not.mpr hused)]
    split_ifs
    · exact { h with }
    · exact h.free i
  · rw [if_pos hused]
    exact h.setFileMutex i _

/-- A process that closes a file keeps the invariant, up to the wait for its mutex. -/
theorem lflclose (h : OpensOk s) : OpensOk (s.lflclose pid i dirty) := by
  have hw := h.setFileMutex i ((s.lfltab i).lfmutex.wait pid).2
  unfold LfsTable.lflclose
  dsimp only
  split_ifs
  · exact hw.closing
  · exact hw

/-- Every step that is not overtaken keeps the invariant. -/
theorem exec {e : LfsEvent} (h : OpensOk s) (hC : NotOvertaken s e) (he : s.exec e = some s') :
    OpensOk s' := by
  cases e with
  | lfsopen pid name mode => exact Option.some.inj he ▸ h.lfsopen pid name mode
  | resumeOpen k => exact h.resumeOpen hC he
  | diskRead ok => exact h.diskRead hC he
  | lflclose pid i dirty => exact Option.some.inj he ▸ h.lflclose
  | resumeClose i k dirty =>
    obtain ⟨⟨pid, sem⟩, -, rfl⟩ := Option.map_eq_some_iff.mp he
    exact (h.setFileMutex i sem).closing
  | flushed i =>
    obtain ⟨pid, -, rfl⟩ := Option.map_eq_some_iff.mp he
    exact h.free i

end OpensOk

/-- In every run in which no call of `lfsopen` that has waited has been overtaken, the open files
are distinct, and so are the files of the directory, if those of the directory on disk are. -/
theorem opens_ok {dskdev : ℤ} {sector : Option (List Ldentry)} {s : LfsTable}
    (hs : ∀ dir, sector = some dir → (dir.map Ldentry.ld_name).Nodup)
    (hr : LfsRun NotOvertaken (.booted dskdev sector) s) : Distinct s := by
  have hok : OpensOk s := by
    induction hr with
    | start => exact opensOk_booted dskdev hs
    | step _ hC he ih => exact ih.exec hC he
  exact hok.distinct

/-- The mutex of the directory has one permit, which the call that reads the directory holds. -/
structure Exclusive (s : LfsTable) : Prop where
  /-- The count of the mutex agrees with its waiting processes. -/
  mutex : s.lf_mutex.Ok
  /-- One permit is left, or the call that reads the directory has it. -/
  one : s.lf_mutex.unused + (if s.reading.isSome then 1 else 0) = 1

namespace Exclusive

variable {s s' : LfsTable} {o : Opening} {pid : ℤ} {i : ℕ} {dirty : Bool}

/-- The step of a call that holds the mutex gives it back, or reads the directory. -/
theorem enter (hm : s.lf_mutex.Ok) (hu : s.lf_mutex.unused = 0) (hr : s.reading = none) :
    Exclusive (s.enter o) := by
  have hsig : ({ s with lf_mutex := s.lf_mutex.signal } : LfsTable).lf_mutex.unused = 1 := by
    rw [hm.unused_signal, hu, zero_add]
  unfold LfsTable.enter LfsTable.claim
  split_ifs
  · cases LfsTable.place s.lf_dir o with
    | none => exact ⟨hm.signal, by simp [hr, hsig]⟩
    | some r => exact ⟨hm.signal, by simp [hr, hsig]⟩
  · exact ⟨hm, by simp [hu]⟩

/-- A call gets the mutex only if no other one holds it. -/
theorem free (h : Exclusive s) (hpos : 0 < s.lf_mutex.unused) : s.lf_mutex.unused = 1 ∧ s.reading = none := by
  have hone := h.one
  cases hr : s.reading with
  | none => simpa [hr] using hone
  | some o =>
    simp only [hr, Option.isSome_some, if_true] at hone
    omega

/-- `lflclose` does not use the mutex of the directory. -/
theorem closing (h : Exclusive s) : Exclusive (s.closing pid i dirty) := by
  unfold LfsTable.closing LfsTable.free
  split_ifs <;> exact ⟨h.mutex, h.one⟩

/-- Every step keeps the mutex with one holder. -/
theorem exec {e : LfsEvent} (h : Exclusive s) (he : s.exec e = some s') : Exclusive s' := by
  -- A call takes the mutex, waits for it, or has it and gives it back.
  cases e with
  | lfsopen pid name mode =>
    obtain rfl := Option.some.inj he
    unfold LfsTable.lfsopen
    cases s.check pid name mode with
    | none => exact h
    | some o =>
      dsimp only
      by_cases hgo : (s.lf_mutex.wait o).1 = true
      · rw [if_pos hgo]
        obtain ⟨hu, hr⟩ := h.free ((Int.natCast_nonneg _).trans_lt (h.mutex.go hgo))
        exact enter h.mutex.wait (by rw [Semaphore.unused_wait_go hgo, hu, sub_self]) hr
      · rw [if_neg hgo]
        exact ⟨h.mutex.wait, by rw [Semaphore.unused_wait_block (Bool.eq_false_iff.mpr hgo)]; exact h.one⟩
  | resumeOpen k =>
    obtain ⟨⟨o, sem⟩, hw, rfl⟩ := Option.map_eq_some_iff.mp he
    have hu := Semaphore.unused_resume hw
    have hw' := (h.mutex.resume hw).woken_le
    obtain ⟨hu₁, hr⟩ := h.free (by omega)
    exact enter (h.mutex.resume hw) (by rw [hu, hu₁, sub_self]) hr
  -- The call that reads has the mutex until it goes on to the directory.
  | diskRead ok =>
    obtain ⟨o, ho, rfl⟩ := Option.map_eq_some_iff.mp he
    have hone := h.one
    rw [ho, Option.isSome_some, if_pos rfl] at hone
    have hu : s.lf_mutex.unused = 0 := by omega
    dsimp only
    cases if ok then s.sector else none with
    | none => exact ⟨h.mutex.signal, by simp [h.mutex.unused_signal, hu]⟩
    | some dir =>
      exact enter (s := { s with reading := none, lf_dir := dir, lf_dirpresent := true }) h.mutex hu rfl
  | lflclose pid i dirty =>
    obtain rfl := Option.some.inj he
    unfold LfsTable.lflclose
    dsimp only
    have hw : Exclusive { s with
        lfltab := Function.update s.lfltab i
          { s.lfltab i with lfmutex := ((s.lfltab i).lfmutex.wait pid).2 } } :=
      ⟨h.mutex, h.one⟩
    split_ifs
    · exact hw.closing
    · exact hw
  | resumeClose i k dirty =>
    obtain ⟨⟨pid, sem⟩, -, rfl⟩ := Option.map_eq_some_iff.mp he
    exact closing ⟨h.mutex, h.one⟩
  | flushed i =>
    obtain ⟨pid, -, rfl⟩ := Option.map_eq_some_iff.mp he
    exact ⟨h.mutex, h.one⟩

end Exclusive

/-- In every run at most one call is between the mutex of the directory and the claim of its entry. -/
theorem LfsRun.exclusive {C : LfsTable → LfsEvent → Prop}
    {dskdev : ℤ} {sector : Option (List Ldentry)} {s : LfsTable}
    (hr : LfsRun C (.booted dskdev sector) s) : Exclusive s := by
  induction hr with
  | start => exact ⟨Semaphore.Ok.create (by decide), rfl⟩
  | step _ _ he ih => exact ih.exec he

instance LfsTable.StillFree.decidable (s : LfsTable) (o : Opening) : Decidable (s.StillFree o) := by
  unfold LfsTable.StillFree
  infer_instance

instance NotOvertaken.decidable (s : LfsTable) : ∀ e, Decidable (NotOvertaken s e)
  | .resumeOpen _ => Machine.forallSome
  | .diskRead ok => decidable_of_iff (∀ o, s.reading = some o → ∀ dir, s.sector = some dir → ok →
      (LfsTable.place dir o).isSome → s.StillFree o) ⟨fun h o dir ho => h o ho dir,
        fun h o ho dir => h o dir ho⟩
  | .lfsopen .. | .lflclose .. | .resumeClose .. | .flushed _ => instDecidableTrue

/-- A list of possible steps under a condition makes a run. -/
theorem LfsRun.of_steps {C : LfsTable → LfsEvent → Prop}
    [∀ s e, Decidable (C s e)] {s₀ s s' : LfsTable} {es : List LfsEvent}
    (hr : LfsRun C s₀ s) (he : Machine.steps LfsTable.exec C s es = some s') : LfsRun C s₀ s' :=
  Machine.steps_induct (fun hr hC he => hr.step hC he) hr he

/-- A process opens a file, with the first read of the directory, and another one opens a second
file; a third call for the first file is refused. The first process closes its file, and a new one
gets the entry. -/
def openAndClose : List LfsEvent :=
  [.lfsopen 1 [97] [119], .diskRead true, .lfsopen 2 [98] [119],
    .lfsopen 3 [97] [119], .lflclose 1 0 false, .lfsopen 3 [99] [119]]

/-- Two files are open then, in two entries. -/
theorem opens_ok_two : ∃ s, Distinct s ∧ s.opened = [(1, [98]), (0, [99])] := by
  have hopened : (Machine.steps LfsTable.exec NotOvertaken (.booted 0 (some [])) openAndClose).map
      (fun s => s.opened) =
      some [(1, [98]), (0, [99])] := by decide +kernel
  obtain ⟨s, hs, ho⟩ := Option.map_eq_some_iff.mp hopened
  exact ⟨s, opens_ok (by simp) (.of_steps .start hs), ho⟩

/-- A process reads the directory to open a file. Meanwhile another process opens a file too, and
finds the same entry free. -/
def twoOpens (a b : CString) : List LfsEvent :=
  [.lfsopen 1 a [119], .lfsopen 2 b [119], .diskRead true, .resumeOpen 0]

/-- Both processes have the first entry. -/
theorem opens_shared : ∃ s, LfsRun (fun _ _ => True) (.booted 0 (some [])) s ∧
    s.opened = [(0, [97]), (0, [98])] ∧ ¬ Distinct s := by
  have hrun : (Machine.steps LfsTable.exec (fun _ _ => True) (.booted 0 (some [])) (twoOpens [97] [98])).map
      (fun s => s.opened) = some [(0, [97]), (0, [98])] := by
    decide +kernel
  obtain ⟨s, hs, ho⟩ := Option.map_eq_some_iff.mp hrun
  refine ⟨s, .of_steps .start hs, ho, fun h => ?_⟩
  have hfst := h.1
  rw [ho] at hfst
  exact absurd hfst (by decide)

/-- Both processes have the same file open. -/
theorem opens_twice :
    ∃ s, LfsRun (fun _ _ => True) (.booted 0 (some [])) s ∧ s.opened = [(0, [97]), (0, [97])] ∧
    ¬ (s.opened.map Prod.snd).Nodup := by
  have hrun : (Machine.steps LfsTable.exec (fun _ _ => True) (.booted 0 (some [])) (twoOpens [97] [97])).map
      (fun s => s.opened) = some [(0, [97]), (0, [97])] := by
    decide +kernel
  obtain ⟨s, hs, ho⟩ := Option.map_eq_some_iff.mp hrun
  refine ⟨s, .of_steps .start hs, ho, ?_⟩
  rw [ho]
  decide

end Xinu
