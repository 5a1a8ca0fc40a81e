import FawnKV.Fawn.Rewrite
import FawnKV.Lib.Transition

/-! `Rewrite` while the store is updated: updates and steps of the scan in any order. -/
namespace FawnKV.Fawn

open ByteFile OpenAddressing FawnDS Transition

/-- A store and a rewrite of it that is under way. -/
structure Compaction where
  old : FawnDS
  scan : Scan

/-- A call on the old store, or a step of the loops of `Rewrite`. -/
inductive CompactionStep where
  | update (op : Op)
  | scan
  deriving DecidableEq, Repr

namespace Compaction

/-- `Rewrite` is called on a store whose log begins at `start`. -/
def init (headerSize start : Nat) (old : FawnDS) : Compaction :=
  { old, scan := Scan.init (rewriteTarget headerSize old) start }

/-- From the catch-up point on the lock is held: no update takes place. -/
def step (hashes : Hashes) (startKey endKey : Dbid) (s : Compaction) : CompactionStep → Option Compaction
  | .update op => if s.scan.pc = .done then none else some { s with old := (s.old.step hashes op).2 }
  | .scan => some { s with
      scan := s.scan.step (rewriteRecord hashes startKey endKey s.old) s.old.header.dataInsertionPoint }

/-- The new store agrees with the old one on the range: by the entries that are found, and by `Get`
when all stored keys have one length. -/
structure Agrees (hashes : Hashes) (startKey endKey : Dbid) (s : Compaction) : Prop where
  contents : ∀ new, s.scan.result = some new → ∀ key, inRange startKey endKey key = true →
    new.contents hashes key = s.old.contents hashes key
  get : ∀ new, s.scan.result = some new →
    ∀ len, (∀ key, (s.old.contents hashes key).isSome → key.length = len) →
    ∀ key, key.length = len → inRange startKey endKey key = true →
      new.get hashes key [] = s.old.get hashes key []

/-- When the delete record of a key that the old store does not have is read, the new store does not
have it either. -/
def NotCopied (hashes : Hashes) (startKey endKey : Dbid) (s : Compaction) : CompactionStep → Prop
  | .update _ => True
  | .scan => ∀ ending dataHeader key, s.scan.pc = .pass ending → s.scan.currentOffset < ending →
      FawnDSFlash.readIntoHeader s.old.datastore s.scan.currentOffset = some (dataHeader, key) →
      dataHeader.deleteLog = true → inRange startKey endKey key = true →
      s.old.findHashIndex hashes key = none → s.scan.target.findHashIndex hashes key = none

/-- What every state keeps: `before` is the part of the old log that was read, and the new store shows
`m`, which is right for the keys without a record in `after`. -/
structure Inv (hashes : Hashes) (startKey endKey : Dbid) (start : Nat) (s : Compaction)
    (before after : List LogRecord) (m : Bytes → Option (Nat × Bytes)) : Prop where
  logged : Logged hashes start s.old (before ++ after)
  bound : s.old.header.dataInsertionPoint < 2 ^ 32
  position : s.scan.currentOffset = logEnd start before
  maps : Maps hashes s.scan.target m
  agree : ∀ key, inRange startKey endKey key = true → key ∉ keysOf after →
    (m key).map Prod.snd = (located start (before ++ after) key).map Prod.snd
  outside : ∀ key, inRange startKey endKey key = false → m key = none
  ending : ∀ ending, s.scan.pc = .pass ending → ending ≤ s.old.header.dataInsertionPoint
  caughtUp : s.scan.pc = .done → after = []

section Proofs

variable {hashes : Hashes} {startKey endKey : Dbid} {start : Nat} {s t : Compaction}
  {before after : List LogRecord} {r : LogRecord} {m : Bytes → Option (Nat × Bytes)} {l : CompactionStep}
  {target : FawnDS} {op : Op}

theorem Inv.agrees (h : Inv hashes startKey endKey start s before after m) :
    Agrees hashes startKey endKey s := by
  have hdone : ∀ new, s.scan.result = some new → s.scan.target = new ∧ after = [] := by
    intro new hnew
    cases hpc : s.scan.pc with
    | done =>
      simp only [Scan.result, hpc, Option.some.injEq] at hnew
      exact ⟨hnew, h.caughtUp hpc⟩
    | _ => simp [Scan.result, hpc] at hnew
  have hlogged := h.logged
  have hagree := h.agree
  constructor
  · intro new hnew key hrange
    obtain ⟨rfl, rfl⟩ := hdone new hnew
    rw [h.maps.contents_eq, hlogged.maps.contents_eq]
    exact hagree key hrange (by simp [keysOf])
  · intro new hnew len hlen key hkey hrange
    obtain ⟨rfl, rfl⟩ := hdone new hnew
    have hold : ∀ k, (located start (before ++ []) k).isSome → k.length = key.length := by
      intro k hk
      rw [hkey]
      apply hlen
      rw [hlogged.maps.contents_eq, Option.isSome_map]
      exact hk
    have hnewkeys : ∀ k, (m k).isSome → k.length = key.length := by
      intro k hk
      cases hr : inRange startKey endKey k with
      | false =>
        rw [h.outside k hr] at hk
        cases hk
      | true =>
        apply hold
        rw [← Option.isSome_map (f := Prod.snd), ← hagree k hr (by simp [keysOf]), Option.isSome_map]
        exact hk
    rw [h.maps.get hnewkeys, hlogged.maps.get hold, hagree key hrange (by simp [keysOf])]

/-- An update adds a record that is still to be read. -/
theorem Inv.update (h : Inv hashes startKey endKey start s before after m) (hpc : s.scan.pc ≠ .done)
    (hbound : (s.old.step hashes op).2.header.dataInsertionPoint < 2 ^ 32) :
    ∃ after', Inv hashes startKey endKey start { s with old := (s.old.step hashes op).2 } before after' m := by
  have hlogged := h.logged.step op hbound
  rw [List.append_assoc] at hlogged
  refine ⟨_, hlogged, hbound, h.position, h.maps, fun key hrange hmem => ?_, h.outside, ?_, ?_⟩
  · have hsplit : key ∉ keysOf after ∧ key ∉ keysOf (recordOf (op, (s.old.step hashes op).1)).toList := by
      simpa [keysOf] using hmem
    rw [h.agree key hrange hsplit.1, ← List.append_assoc, located_of_notMem_after hsplit.2]
  · intro ending hpass
    exact le_trans (h.ending ending hpass) (step_insertionPoint op)
  · intro hdone
    exact absurd hdone hpc

/-- A key whose last record is being read is right afterwards if it is so by that record. -/
theorem agree_record {m' : Bytes → Option (Nat × Bytes)}
    (h : ∀ key, inRange startKey endKey key = true → key ∉ keysOf (r :: after) →
      (m key).map Prod.snd = (located start (before ++ r :: after) key).map Prod.snd)
    (hother : ∀ key, key ≠ r.key → m' key = m key)
    (hself : inRange startKey endKey r.key = true → r.key ∉ keysOf after →
      (m' r.key).map Prod.snd = if r.deleteLog then none else some r.value) :
    ∀ key, inRange startKey endKey key = true → key ∉ keysOf after →
      (m' key).map Prod.snd = (located start (before ++ [r] ++ after) key).map Prod.snd := by
  intro key hrange hmem
  rw [List.append_assoc, List.singleton_append]
  by_cases hkey : key = r.key
  · subst hkey
    rw [hself hrange hmem, located_last]
    · cases r.deleteLog <;> rfl
    · intro r' hr' hkey
      exact hmem (List.mem_map.mpr ⟨r', hr', hkey⟩)
  · rw [hother key hkey]
    apply h key hrange
    simpa [keysOf, hkey] using hmem

theorem outside_update {key : Bytes} (hrange : inRange startKey endKey key = true)
    (houtside : ∀ key, inRange startKey endKey key = false → m key = none) (p : Option (Nat × Bytes)) :
    ∀ k, inRange startKey endKey k = false → Function.update m key p k = none := by
  intro k hk
  have hne : k ≠ key := by
    rintro rfl
    rw [hrange] at hk
    cases hk
  rw [Function.update_of_ne hne, houtside k hk]

/-- The new store after a record. -/
theorem maps_record {target' : FawnDS} {checkpointed : Bool} (hmaps : Maps hashes target m)
    (hagree : ∀ key, inRange startKey endKey key = true → key ∉ keysOf (r :: after) →
      (m key).map Prod.snd = (located start (before ++ r :: after) key).map Prod.snd)
    (houtside : ∀ key, inRange startKey endKey key = false → m key = none)
    (hcopied : r.deleteLog = true → inRange startKey endKey r.key = true →
      located start (before ++ r :: after) r.key = none → m r.key = none)
    (hact : copyRecord hashes (inRange startKey endKey) (located start (before ++ r :: after)) checkpointed
      target (logEnd start before) r = some target')
    (hbound : target'.header.dataInsertionPoint < 2 ^ 32) :
    ∃ m', Maps hashes target' m' ∧
      (∀ key, inRange startKey endKey key = true → key ∉ keysOf after →
        (m' key).map Prod.snd = (located start (before ++ [r] ++ after) key).map Prod.snd) ∧
      ∀ key, inRange startKey endKey key = false → m' key = none := by
  rw [copyRecord_eq] at hact
  cases hrange : inRange startKey endKey r.key with
  | false =>
    rw [if_pos hrange, Option.some.injEq] at hact
    subst hact
    refine ⟨m, hmaps, agree_record hagree (fun _ _ => rfl) fun hin => ?_, houtside⟩
    rw [hrange] at hin
    cases hin
  | true =>
    rw [if_neg (by simp [hrange])] at hact
    cases hdelete : r.deleteLog with
    | true =>
      rw [if_pos hdelete] at hact
      by_cases hlive : (located start (before ++ r :: after) r.key).isSome
      · -- a later record is about the key
        rw [if_pos hlive, rewriteDelete_eq] at hact
        split at hact
        · rename_i hok
          rw [Option.some.injEq] at hact
          subst hact
          obtain ⟨hmaps', -⟩ := hmaps.deleteWith hok
          refine ⟨_, hmaps', agree_record hagree (fun key hkey => Function.update_of_ne hkey ..) ?_, ?_⟩
          · intro _ _
            rw [Function.update_self, hdelete]
            rfl
          · exact outside_update hrange houtside _
        · cases hact
      · -- the key is gone from the old store, and the new store must not have it
        rw [if_neg hlive, Option.some.injEq] at hact
        subst hact
        refine ⟨m, hmaps, agree_record hagree (fun _ _ => rfl) fun _ _ => ?_, houtside⟩
        rw [hcopied hdelete hrange (Option.not_isSome_iff_eq_none.mp hlive), hdelete]
        rfl
    | false =>
      rw [if_neg (by simp [hdelete])] at hact
      by_cases hmem : r.key ∈ keysOf after
      · rw [if_pos hmem, Option.some.injEq] at hact
        subst hact
        exact ⟨m, hmaps, agree_record hagree (fun _ _ => rfl) fun _ hnot => absurd hmem hnot, houtside⟩
      · rw [if_neg hmem, rewriteInsert_eq] at hact
        split at hact
        · rename_i hok
          rw [Option.some.injEq] at hact
          subst hact
          obtain ⟨hmaps', -⟩ := hmaps.insert hok hbound
          refine ⟨_, hmaps', agree_record hagree (fun key hkey => Function.update_of_ne hkey ..) ?_, ?_⟩
          · intro _ _
            rw [Function.update_self, hdelete]
            rfl
          · exact outside_update hrange houtside _
        · cases hact

theorem Inv.setPc (h : Inv hashes startKey endKey start s before after m) (checkpointed : Bool) (pc : ScanPc)
    (hending : ∀ ending, pc = .pass ending → ending ≤ s.old.header.dataInsertionPoint)
    (hcaughtUp : pc = .done → after = []) :
    Inv hashes startKey endKey start { s with scan := { s.scan with checkpointed, pc } } before after m :=
  ⟨h.logged, h.bound, h.position, h.maps, h.agree, h.outside, hending, hcaughtUp⟩

theorem Inv.logEnd (h : Inv hashes startKey endKey start s before after m) :
    s.old.header.dataInsertionPoint = Fawn.logEnd s.scan.currentOffset after := by
  rw [h.logged.logEnd, logEnd_append, h.position]

/-- The scan reads a record. -/
theorem Inv.read {ending next : Nat} (h : Inv hashes startKey endKey start s before after m)
    (hpc : s.scan.pc = .pass ending) (hlt : s.scan.currentOffset < ending)
    (hhandle : rewriteRecord hashes startKey endKey s.old s.scan.checkpointed s.scan.target
      s.scan.currentOffset = some (target, next))
    (hcopied : NotCopied hashes startKey endKey s .scan) (hbound : target.header.dataInsertionPoint < 2 ^ 32) :
    ∃ before' after' m', Inv hashes startKey endKey start
      { s with scan := { s.scan with target, currentOffset := next } } before' after' m' := by
  have hle := h.ending ending hpc
  cases after with
  | nil =>
    rw [h.logEnd, logEnd_nil] at hle
    omega
  | cons r after =>
    have hlogged := h.logged
    have himage := hlogged.image.hasRecord (by rw [hlogged.maps.logEnd]; exact h.bound)
    rw [h.position, rewriteRecord_eq hlogged h.bound] at hhandle
    obtain ⟨target', hact, hpair⟩ := Option.map_eq_some_iff.mp hhandle
    cases hpair
    have hnew : r.deleteLog = true → inRange startKey endKey r.key = true →
        located start (before ++ r :: after) r.key = none → m r.key = none := by
      intro hdelete hrange hgone
      rw [← h.maps.findHashIndex_none]
      apply hcopied ending r.header r.key hpc hlt _ hdelete hrange
      · exact (hlogged.maps.findHashIndex_none r.key).mpr hgone
      · rw [h.position]
        exact himage.readIntoHeader
    obtain ⟨m', hmaps, hagree, houtside⟩ :=
      maps_record h.maps h.agree h.outside hnew hact hbound
    refine ⟨before ++ [r], after, m', ?_, h.bound, ?_, hmaps, hagree, houtside, h.ending, ?_⟩
    · simpa using hlogged
    · rw [logEnd_append, logEnd_cons, logEnd_nil]
    · intro hdone
      rw [hpc] at hdone
      cases hdone

/-- A step of the scan. -/
theorem Inv.scan (h : Inv hashes startKey endKey start s before after m)
    (hstep : step hashes startKey endKey s .scan = some t)
    (hcopied : NotCopied hashes startKey endKey s .scan)
    (hbound : t.scan.target.header.dataInsertionPoint < 2 ^ 32) :
    ∃ before' after' m', Inv hashes startKey endKey start t before' after' m' := by
  cases hstep
  rcases s.scan.step_cases (rewriteRecord hashes startKey endKey s.old) s.old.header.dataInsertionPoint with
    ⟨-, pc, hscan, hpc⟩ | ⟨ending, hpc, hlt, hread⟩ | ⟨ending, -, hscan⟩ | hscan
  · rw [hscan]
    refine ⟨before, after, m, h.setPc _ pc ?_ ?_⟩
    · rintro ending rfl
      rcases hpc with hpc | ⟨hpc, -⟩ | hpc
      · cases hpc
      · cases hpc
      · cases hpc
        exact le_rfl
    · rintro rfl
      rcases hpc with hpc | ⟨-, hcaught⟩ | hpc
      · cases hpc
      · -- nothing is left to be read
        cases after with
        | nil => rfl
        | cons r after =>
          rw [h.logEnd] at hcaught
          exact absurd hcaught (Nat.ne_of_lt logEnd_lt_cons)
      · cases hpc
  · cases hhandle : rewriteRecord hashes startKey endKey s.old s.scan.checkpointed s.scan.target
      s.scan.currentOffset with
    | none =>
      simp only [hhandle] at hread
      rw [hread]
      exact ⟨before, after, m, h.setPc _ .failed (by simp) (by simp)⟩
    | some q =>
      obtain ⟨target, next⟩ := q
      simp only [hhandle] at hread
      rw [hread] at hbound ⊢
      exact h.read hpc hlt hhandle hcopied hbound
  · rw [hscan]
    exact ⟨before, after, m, h.setPc true .top (by simp) (by simp)⟩
  · rw [hscan]
    exact ⟨before, after, m, h⟩

theorem step_update (hstep : step hashes startKey endKey s (.update op) = some t) :
    s.scan.pc ≠ .done ∧ t = { s with old := (s.old.step hashes op).2 } := by
  by_cases hpc : s.scan.pc = .done
  · simp [step, hpc] at hstep
  · simp only [step, hpc, if_false, Option.some.injEq] at hstep
    exact ⟨hpc, hstep.symm⟩

theorem step_old_le (hstep : step hashes startKey endKey s l = some t) :
    s.old.header.dataInsertionPoint ≤ t.old.header.dataInsertionPoint := by
  cases l with
  | update op =>
    obtain ⟨-, rfl⟩ := step_update hstep
    exact step_insertionPoint op
  | scan =>
    cases hstep
    exact le_rfl

theorem step_new_le (hstep : step hashes startKey endKey s l = some t) :
    s.scan.target.header.dataInsertionPoint ≤ t.scan.target.header.dataInsertionPoint := by
  cases l with
  | update op =>
    obtain ⟨-, rfl⟩ := step_update hstep
    exact le_rfl
  | scan =>
    cases hstep
    rcases s.scan.step_cases (rewriteRecord hashes startKey endKey s.old) s.old.header.dataInsertionPoint with
      ⟨-, pc, hscan, -⟩ | ⟨ending, -, -, hread⟩ | ⟨ending, -, hscan⟩ | hscan
    · rw [hscan]
    · cases hhandle : rewriteRecord hashes startKey endKey s.old s.scan.checkpointed s.scan.target
        s.scan.currentOffset with
      | none =>
        simp only [hhandle] at hread
        rw [hread]
      | some q =>
        simp only [hhandle] at hread
        rw [hread]
        exact rewriteRecord_insertionPoint hhandle
    · rw [hscan]
    · rw [hscan]

theorem inv_init (headerSize : Nat) {old : FawnDS} {log : List LogRecord} {n : Nat}
    (hlogged : Logged hashes start old log) (hbound : old.header.dataInsertionPoint < 2 ^ 32) (hn : 3 ≤ n)
    (hsize : (maxEntries old.header).toNat = 2 ^ n) :
    Inv hashes startKey endKey start (init headerSize start old) [] log fun _ => none := by
  refine ⟨hlogged, hbound, rfl, maps_create headerSize hn hsize, fun key _ hmem => ?_, fun _ _ => rfl, ?_, ?_⟩
  · rw [located_of_notMem_after hmem]
    rfl
  · intro ending hpass
    cases hpass
  · intro hdone
    cases hdone

end Proofs

/-- A rewrite during which the store is updated in any way: the new store agrees with the old one when
it is returned, if no delete record is read of a key that is gone from the old store and was copied
to the new one. -/
theorem rewrite_concurrent (hashes : Hashes) (headerSize : Nat) (size : UInt64) (n : Nat) (hn : 3 ≤ n)
    (hsize : size.toNat = 2 ^ n) (ops : List Op) (startKey endKey : Dbid) (ls : List CompactionStep)
    (t : Compaction) :
    let made := FawnDS.run hashes (create headerSize size) ops
    let first := init headerSize (headerSize + 6 * size.toNat) made.2
    run (step hashes startKey endKey) first ls = some t →
    t.old.header.dataInsertionPoint < 2 ^ 32 → t.scan.target.header.dataInsertionPoint < 2 ^ 32 →
    Meets (step hashes startKey endKey) (NotCopied hashes startKey endKey) first ls →
    Always (step hashes startKey endKey) (Agrees hashes startKey endKey) first ls := by
  intro made first hrun hold hnew hmeets
  have hbound : made.2.header.dataInsertionPoint < 2 ^ 32 :=
    lt_of_le_of_lt (run_le (s := first) (fun _ _ _ => step_old_le) hrun) hold
  have hlogged : Logged hashes (headerSize + 6 * size.toNat) made.2 (records made.1) :=
    (logged_create hashes headerSize hn hsize).run ops hbound
  obtain ⟨m, hm, hnewsize⟩ := maxEntries_of_run hashes headerSize hn hsize ops hbound
  have hbelow := (meets_of_le (fun _ _ _ => step_old_le) hrun hold).and
    (meets_of_le (fun _ _ _ => step_new_le) hrun hnew)
  refine always_of_meets
    (I := fun s => ∃ before after m, Inv hashes startKey endKey (headerSize + 6 * size.toNat) s before after m)
    ?_ ?_ (hmeets.and hbelow) ⟨[], _, _, inv_init headerSize hlogged hbound hm hnewsize⟩
  · rintro s l t hstep ⟨hcopied, hlogs⟩ ⟨before, after, m, h⟩
    cases l with
    | update op =>
      have hnext := hlogs.1 t hstep
      obtain ⟨hpc, rfl⟩ := step_update hstep
      obtain ⟨after', h'⟩ := h.update hpc hnext
      exact ⟨before, after', m, h'⟩
    | scan => exact h.scan hstep hcopied (hlogs.2 t hstep)
  · rintro s ⟨before, after, m, h⟩
    exact h.agrees


/-- Key `2` is overwritten after its record was copied, and the second pass copies it again. -/
theorem rewrite_concurrent_overwrite :
    Always (step (fun _ _ => 5) (.init [1]) (.init [8])) (Agrees (fun _ _ => 5) (.init [1]) (.init [8]))
      (init 0 48 (FawnDS.run (fun _ _ => 5) (create 0 8) [.insert [2] [20]]).2)
      [.scan, .scan, .update (.insert [2] [21]), .scan, .scan, .scan, .scan, .scan] := by
  apply rewrite_concurrent (fun _ _ => 5) 0 8 3 (by decide) rfl [.insert [2] [20]] _ _ _ _ rfl
    (by decide) (by decide)
  refine Meets.cons rfl ?_ (Meets.cons rfl ?_ (Meets.cons rfl trivial (Meets.cons rfl ?_ (Meets.cons rfl ?_
    (Meets.cons rfl ?_ (Meets.cons rfl ?_ (Meets.cons rfl ?_ trivial)))))))
  · intro ending dataHeader key hpc
    cases hpc
  · intro ending dataHeader key _ _ hread hdelete
    cases hread
    cases hdelete
  · intro ending dataHeader key hpc hlt
    cases hpc
    exact absurd hlt (by decide)
  · intro ending dataHeader key hpc
    cases hpc
  · intro ending dataHeader key _ _ hread hdelete
    cases hread
    cases hdelete
  · intro ending dataHeader key hpc hlt
    cases hpc
    exact absurd hlt (by decide)
  · intro ending dataHeader key hpc
    cases hpc

/-- Key `2` is deleted after its record was copied, and the second pass skips the delete record. -/
theorem rewrite_keeps_deleted_key :
    ∃ t new, run (step (fun _ _ => 5) (.init [1]) (.init [8]))
        (init 4096 4144 (FawnDS.run (fun _ _ => 5) (create 4096 8) [.insert [2] [20]]).2)
        [.scan, .scan, .update (.delete [2]), .scan, .scan, .scan, .scan, .scan] = some t ∧
      t.scan.result = some new ∧ new.get (fun _ _ => 5) [2] [] = (true, [20]) ∧
      t.old.get (fun _ _ => 5) [2] [] = (false, []) := by
  have heval : ((run (step (fun _ _ => 5) (.init [1]) (.init [8]))
      (init 4096 4144 (FawnDS.run (fun _ _ => 5) (create 4096 8) [.insert [2] [20]]).2)
      [.scan, .scan, .update (.delete [2]), .scan, .scan, .scan, .scan, .scan]).map fun t =>
        (t.scan.result.map fun new => new.get (fun _ _ => 5) [2] [], t.old.get (fun _ _ => 5) [2] [])) =
          some (some (true, [20]), (false, [])) := by
    decide +kernel
  obtain ⟨t, ht, hpair⟩ := Option.map_eq_some_iff.mp heval
  obtain ⟨hnew, hold⟩ := Prod.mk.inj hpair
  obtain ⟨new, hresult, hget⟩ := Option.map_eq_some_iff.mp hnew
  exact ⟨t, new, ht, hresult, hget, hold⟩

end Compaction

end FawnKV.Fawn
