import Xv6.Log.Basic

/-!
# Crash atomicity of a commit

A crash during `commit()` keeps a prefix of its block writes. The reboot starts
`recover_from_log()` on that disk with an empty cache, and it may be cut off in
the same way, any number of times, before one recovery runs to its end.

Two predicates on a disk describe every state of this: `Clean`, where the header lists
nothing and recovery installs nothing, and `Committed`, where it lists a transaction.
A listed block may then be at any contents, since the installation of it may or may not
have happened.

The header write of `commit()` moves from the first to the second
(`commit_take`), a cut recovery stays in either (`Clean.cut`, `Committed.cut`)
or clears the header, and a full one ends in `Clean` (`Clean.recovered`,
`Committed.recovered`).
-/

namespace Xv6

open Redo

/-! ## The writes of each loop -/

/-- The writes of `copyBlocks`, when no block is both read and written. -/
def copyWrites (dst src : Nat → Nat) (n : Nat) (d : Nat → Block) : List (Nat × Block) :=
  (List.range n).map fun tail => (dst tail, d (src tail))

theorem copyBlocks_eq {dst src : Nat → Nat} {n : Nat} (m : Machine) (h : ∀ i < n, ∀ j < n, src i ≠ dst j) :
    copyBlocks dst src n m = m.writes (copyWrites dst src n m.bread) := by
  induction n with
  | zero => rfl
  | succ n ih =>
    have ih := ih fun i hi j hj => h i (by omega) j (by omega)
    have hsrc : (m.writes (copyWrites dst src n m.bread)).bread (src n) = m.bread (src n) := by
      rw [Machine.bread_writes]
      apply applyWrites_of_notMem
      intro hmem
      rw [copyWrites, List.map_map] at hmem
      obtain ⟨j, hj, he⟩ := List.mem_map.mp hmem
      exact h n (by omega) j (by have := List.mem_range.mp hj; omega) he.symm
    have hstep : copyBlocks dst src (n + 1) m =
        (copyBlocks dst src n m).bwrite (dst n) ((copyBlocks dst src n m).bread (src n)) := by
      rw [copyBlocks, List.range_succ, List.foldl_append]
      rfl
    rw [hstep, ih, hsrc, copyWrites, copyWrites, List.range_succ, List.map_append,
      ← Machine.writes_append]
    rfl

theorem copyWrites_fst (dst src : Nat → Nat) (n : Nat) (d : Nat → Block) :
    (copyWrites dst src n d).map Prod.fst = (List.range n).map dst := by
  rw [copyWrites, List.map_map]
  rfl

/-! ## Machines and disks of a crash -/

/-- The block writes of `commit()`, in program order. -/
def commitWrites (lg : Log) (m : Machine) : List (Nat × Block) :=
  (commit lg { m with io := [] }).2.io

/-- The block writes of `recover_from_log()` after a reboot. -/
def recoverWrites (lg : Log) (d : Nat → Block) : List (Nat × Block) :=
  (recoverFromLog lg (Machine.reboot d)).2.io

/-- The disk after a crash that kept the first `k` writes of `ws`. -/
def cutOff (ws : List (Nat × Block)) (k : Nat) (d : Nat → Block) : Nat → Block :=
  applyWrites (ws.take k) d

/-- `struct log` as `initlog` leaves it after a reboot, before recovery. -/
def Log.boot (lg : Log) : Log := ⟨lg.start, lg.size, 0, false, .empty⟩

/-- The disk after one recovery for each cut, each cut off after that many
writes, and then one recovery that completes. -/
def afterCrashes (lg : Log) : List Nat → (Nat → Block) → Nat → Block
  | [], d => (recoverFromLog lg (Machine.reboot d)).2.disk
  | k :: ks, d => afterCrashes lg ks (cutOff (recoverWrites lg d) k d)

/-! ## The two kinds of disk -/

/-- The header lists nothing and the blocks outside the log area are `home`. -/
structure Clean (lg : Log) (home d : Nat → Block) : Prop where
  header : loopBound ((d lg.start).uint 0) = 0
  home : ∀ b, ¬ lg.InArea b → d b = home b

/-- The header lists `lg.lh`, the log area holds the contents of `home` for the
blocks listed, and the blocks outside the area that are not listed are `home`. -/
structure Committed (lg : Log) (home d : Nat → Block) : Prop where
  headerN : loopBound ((d lg.start).uint 0) = lg.lh.n
  /-- The blocks the on-disk header lists. -/
  headerBlock : ∀ (lh : LogHeader), ∀ i < lg.lh.n, (lh.load (d lg.start)).home i = lg.lh.home i
  /-- The contents to install. -/
  logged : ∀ i < lg.lh.n, d (lg.start + i + 1) = home (lg.lh.home i)
  /-- The home blocks that are not listed. -/
  home : ∀ b, ¬ lg.InArea b → b ∉ lg.lh.blocks → d b = home b

/-- What `log_write` and its callers promise of a transaction: it fits in the
log and its home blocks are distinct and outside the log area. -/
structure Log.Ready (lg : Log) : Prop where
  pos : 0 < lg.lh.n
  le_logsize : lg.lh.n ≤ LOGSIZE
  /-- It fits in the log area after the header. -/
  le_size : lg.lh.n ≤ lg.size - 1
  nodup : lg.lh.blocks.Nodup
  out : ∀ b ∈ lg.lh.blocks, ¬ lg.InArea b

section

variable {lg : Log} {home d : Nat → Block}

variable {i : Nat}

theorem LogHeader.home_mem_blocks {lh : LogHeader} (h : i < lh.n) :
    lh.home i ∈ lh.blocks := List.mem_map.mpr ⟨i, List.mem_range.mpr h, rfl⟩

theorem Log.Ready.inArea (h : lg.Ready) (hi : i < lg.lh.n) : lg.InArea (lg.start + i + 1) := by
  have h1 := h.le_size
  exact ⟨by omega, by omega⟩

theorem Log.Ready.start_inArea (h : lg.Ready) : lg.InArea lg.start := by
  have h1 := h.le_size
  have h2 := h.pos
  exact ⟨Nat.le_refl _, by omega⟩

theorem Log.Ready.home_ne (h : lg.Ready) {j : Nat} (hi : i < lg.lh.n) (hj : j < lg.lh.n) :
    lg.lh.home i ≠ lg.start + j + 1 := by
  intro he
  exact h.out _ (LogHeader.home_mem_blocks hi) (he ▸ h.inArea hj)

theorem Log.Ready.start_notMem (h : lg.Ready) : lg.start ∉ lg.lh.blocks :=
  fun hm => h.out _ hm h.start_inArea

variable {k : Nat}

theorem cutOff_of_length_le {ws : List (Nat × Block)} (h : ws.length ≤ k)
    (d : Nat → Block) : cutOff ws k d = applyWrites ws d := by
  rw [cutOff, List.take_of_length_le h]

/-! ## Recovery -/

/-- The header block with `n` cleared. -/
def clearedHeader (b : Block) : Block := b.setUint 0 0

theorem loopBound_clearedHeader (b : Block) : loopBound ((clearedHeader b).uint 0) = 0 := by
  rw [clearedHeader, Block.uint_setUint_same _ _ (by decide)]
  rfl

theorem writeHead_clear (lg : Log) (m : Machine) :
    writeHead lg.clear m = m.writes [(lg.start, clearedHeader (m.bread lg.start))] := rfl

theorem clean_of_cleared (hlg : lg.Ready) (b : Block) (hd : ∀ x, ¬ lg.InArea x → d x = home x) :
    Clean lg home (Function.update d lg.start (clearedHeader b)) where
  header := by rw [Function.update_self, loopBound_clearedHeader]
  home := by
    intro x hx
    have hne : x ≠ lg.start := fun he => hx (he ▸ hlg.start_inArea)
    rw [Function.update_of_ne hne]
    exact hd x hx

theorem Clean.recover (h : Clean lg home d) : (recoverFromLog lg.boot (Machine.reboot d)).2
      = (Machine.reboot d).writes [(lg.start, clearedHeader (d lg.start))] := by
  have hn : (readHead lg.boot (Machine.reboot d)).lh.n = 0 := h.header
  simp only [recoverFromLog, installTrans, hn, copyBlocks]
  rfl

theorem Clean.recoverWrites_eq (h : Clean lg home d) :
    recoverWrites lg.boot d = [(lg.start, clearedHeader (d lg.start))] := by
  rw [recoverWrites, h.recover, Machine.io_writes]
  rfl

theorem Clean.cut (hlg : lg.Ready) (h : Clean lg home d) (k : Nat) :
    Clean lg home (cutOff (recoverWrites lg.boot d) k d) := by
  rw [cutOff, h.recoverWrites_eq]
  cases k with
  | zero => exact h
  | succ k =>
    rw [List.take_succ_cons, List.take_nil]
    exact clean_of_cleared hlg _ h.home

/-- The writes that install the blocks of `lg` at their contents in `home`. -/
def homeWrites (lg : Log) (home : Nat → Block) : List (Nat × Block) :=
  lg.lh.blocks.map fun b => (b, home b)

theorem homeWrites_take (lg : Log) (home : Nat → Block) (k : Nat) (d : Nat → Block) (x : Nat) :
    applyWrites ((homeWrites lg home).take k) d x = if x ∈ lg.lh.blocks.take k then home x else d x := by
  rw [homeWrites, ← List.map_take, applyWrites_graph]

theorem Committed.installTrans_eq (hlg : lg.Ready) (h : Committed lg home d) (lg' : Log)
    (hs : lg'.start = lg.start) (hn : lg'.lh.n = lg.lh.n)
    (hb : ∀ i < lg.lh.n, lg'.lh.home i = lg.lh.home i) (m : Machine) (hm : m.bread = d) :
    installTrans lg' m = m.writes (homeWrites lg home) := by
  rw [installTrans, hn, hs, copyBlocks_eq m, hm]
  · congr 1
    rw [copyWrites, homeWrites, LogHeader.blocks, List.map_map]
    apply List.map_congr_left
    intro i hi
    have hi := List.mem_range.mp hi
    rw [hb i hi, h.logged i hi]
    rfl
  · intro i hi j hj he
    rw [hb j hj] at he
    exact hlg.home_ne hj hi he.symm

theorem Committed.recover (hlg : lg.Ready) (h : Committed lg home d) :
    (recoverFromLog lg.boot (Machine.reboot d)).2 = (Machine.reboot d).writes
      (homeWrites lg home ++ [(lg.start, clearedHeader (d lg.start))]) := by
  have hi : installTrans (readHead lg.boot (Machine.reboot d)) (Machine.reboot d)
      = (Machine.reboot d).writes (homeWrites lg home) :=
    h.installTrans_eq hlg (readHead lg.boot (Machine.reboot d)) rfl h.headerN
      (h.headerBlock _) _ rfl
  have hstart : applyWrites (homeWrites lg home) d lg.start = d lg.start := by
    rw [homeWrites, applyWrites_graph, if_neg hlg.start_notMem]
  rw [recoverFromLog]
  simp only [hi, writeHead_clear, Machine.bread_writes, Machine.bread_reboot,
    Machine.writes_append]
  rw [show (readHead lg.boot (Machine.reboot d)).start = lg.start from rfl, hstart]

theorem Committed.recoverWrites_eq (hlg : lg.Ready) (h : Committed lg home d) :
    recoverWrites lg.boot d = homeWrites lg home ++ [(lg.start, clearedHeader (d lg.start))] := by
  rw [recoverWrites, h.recover hlg, Machine.io_writes]
  rfl

theorem Committed.take (hlg : lg.Ready) (h : Committed lg home d) (k : Nat) :
    Committed lg home (applyWrites ((homeWrites lg home).take k) d) := by
  have hstart : applyWrites ((homeWrites lg home).take k) d lg.start = d lg.start := by
    rw [homeWrites_take, if_neg (fun hm => hlg.start_notMem (List.mem_of_mem_take hm))]
  refine ⟨by rw [hstart, h.headerN], fun lh => by rw [hstart]; exact h.headerBlock lh, ?_, ?_⟩
  · intro i hi
    rw [homeWrites_take, if_neg (fun hm => ?_), h.logged i hi]
    exact hlg.out _ (List.mem_of_mem_take hm) (hlg.inArea hi)
  · intro b hb hbl
    rw [homeWrites_take, if_neg (fun hm => hbl (List.mem_of_mem_take hm)), h.home b hb hbl]

theorem Committed.installed (h : Committed lg home d) {b : Nat} (hb : ¬ lg.InArea b) :
    applyWrites (homeWrites lg home) d b = home b := by
  rw [homeWrites, applyWrites_graph]
  by_cases hm : b ∈ lg.lh.blocks
  · rw [if_pos hm]
  · rw [if_neg hm, h.home b hb hm]

/-- The installation and the header write after it, cut off anywhere, leave a
committed disk committed, or done. -/
theorem Committed.cut (hlg : lg.Ready) (h : Committed lg home d) (b : Block) (k : Nat) :
    Committed lg home (cutOff (homeWrites lg home ++ [(lg.start, clearedHeader b)]) k d) ∨
      Clean lg home (cutOff (homeWrites lg home ++ [(lg.start, clearedHeader b)]) k d) := by
  rw [cutOff]
  by_cases hk : k ≤ (homeWrites lg home).length
  · rw [List.take_append_of_le_length hk]
    exact Or.inl (h.take hlg k)
  · rw [List.take_of_length_le (by rw [List.length_append]; simp; omega), applyWrites_append]
    exact Or.inr (clean_of_cleared hlg _ fun x hx => h.installed hx)

theorem recovered_eq_cutOff {ws : List (Nat × Block)} (hk : ws.length ≤ k)
    (h : (recoverFromLog lg.boot (Machine.reboot d)).2 = (Machine.reboot d).writes ws) :
    afterCrashes lg.boot [] d = cutOff ws k d := by
  rw [cutOff_of_length_le hk, afterCrashes, h, Machine.disk_writes, Machine.disk_reboot]

theorem Clean.afterCrashes (hlg : lg.Ready) : ∀ (ks : List Nat) {d : Nat → Block}, Clean lg home d →
      Clean lg home (afterCrashes lg.boot ks d)
  | [], d, h => by
    rw [recovered_eq_cutOff (Nat.le_refl _) h.recover, ← h.recoverWrites_eq]
    exact h.cut hlg _
  | k :: ks, _, h => Clean.afterCrashes hlg ks (h.cut hlg k)

theorem Committed.afterCrashes (hlg : lg.Ready) : ∀ (ks : List Nat) {d : Nat → Block}, Committed lg home d →
      Clean lg home (afterCrashes lg.boot ks d)
  | [], d, h => by
    rw [recovered_eq_cutOff (Nat.le_refl _) (h.recover hlg), cutOff_of_length_le (Nat.le_refl _),
      applyWrites_append]
    exact clean_of_cleared hlg _ fun x hx => h.installed hx
  | k :: ks, d, h => by
    rw [Xv6.afterCrashes, h.recoverWrites_eq hlg]
    rcases h.cut hlg (d lg.start) k with h' | h'
    · exact Committed.afterCrashes hlg ks h'
    · exact h'.afterCrashes hlg ks

/-! ## The writes of a commit -/

/-- The writes of `write_log`, from the buffers of `m`. -/
def logWrites (lg : Log) (m : Machine) : List (Nat × Block) :=
  copyWrites (fun tail => lg.start + tail + 1) lg.lh.home lg.lh.n m.bread

def commitHeader (lg : Log) (m : Machine) : Block := lg.lh.store (m.bread lg.start)

theorem logWrites_length (lg : Log) (m : Machine) : (logWrites lg m).length = lg.lh.n := by
  rw [logWrites, copyWrites, List.length_map, List.length_range]

variable {x : Nat}

theorem mem_logWrites_fst {lg : Log} {m : Machine} :
    x ∈ (logWrites lg m).map Prod.fst ↔ ∃ i < lg.lh.n, x = lg.start + i + 1 := by
  rw [logWrites, copyWrites_fst, List.mem_map]
  constructor
  · rintro ⟨i, hi, he⟩
    exact ⟨i, List.mem_range.mp hi, he.symm⟩
  · rintro ⟨i, hi, he⟩
    exact ⟨i, List.mem_range.mpr hi, he.symm⟩

theorem applyWrites_logWrites (lg : Log) (m : Machine) (d : Nat → Block) (hi : i < lg.lh.n) :
    applyWrites (logWrites lg m) d (lg.start + i + 1) = m.bread (lg.lh.home i) := by
  have hg : logWrites lg m = ((List.range lg.lh.n).map (fun tail => lg.start + tail + 1)).map
      fun a => (a, m.bread (lg.lh.home (a - lg.start - 1))) := by
    rw [logWrites, copyWrites, List.map_map]
    apply List.map_congr_left
    intro j _
    rw [Function.comp_apply, show lg.start + j + 1 - lg.start - 1 = j by omega]
  rw [hg, applyWrites_graph, if_pos (List.mem_map.mpr ⟨i, List.mem_range.mpr hi, rfl⟩),
    show lg.start + i + 1 - lg.start - 1 = i by omega]

section

variable (hlg : lg.Ready) (m : Machine)

include hlg m

theorem logWrites_take_of_ne (k : Nat) (d : Nat → Block)
    (hx : x = lg.start ∨ ¬ lg.InArea x) : applyWrites ((logWrites lg m).take k) d x = d x := by
  apply applyWrites_of_notMem
  intro hm
  rw [List.map_take] at hm
  obtain ⟨i, hi, he⟩ := mem_logWrites_fst.mp (List.mem_of_mem_take hm)
  cases hx with
  | inl h => omega
  | inr h => exact h (he ▸ hlg.inArea hi)

theorem logWrites_of_ne (d : Nat → Block)
    (hx : x = lg.start ∨ ¬ lg.InArea x) : applyWrites (logWrites lg m) d x = d x := by
  have h := logWrites_take_of_ne hlg m (logWrites lg m).length d hx
  rwa [List.take_length] at h

/-- The header write commits: the log area holds the new contents, and the
header lists them. `d` is the disk or the cache before the commit. -/
theorem committed_commitHeader
    (hd : ∀ b, ¬ lg.InArea b → b ∉ lg.lh.blocks → d b = m.bread b) :
    Committed lg m.bread (Function.update (applyWrites (logWrites lg m) d) lg.start
      (commitHeader lg m)) where
  headerN := by
    rw [Function.update_self, commitHeader, uint_zero_store, loopBound_ofNat hlg.le_logsize]
  headerBlock := by
    intro lh i hi
    rw [Function.update_self, commitHeader, load_store_home _ _ hlg.le_logsize _ hi]
  logged := by
    intro i hi
    rw [Function.update_of_ne (by omega), applyWrites_logWrites lg m d hi]
  home := by
    intro b hb hbl
    have hne : b ≠ lg.start := fun he => hb (he ▸ hlg.start_inArea)
    rw [Function.update_of_ne hne, logWrites_of_ne hlg m d (Or.inr hb), hd b hb hbl]

theorem commit_eq :
    (commit lg m).2 = m.writes (logWrites lg m ++ (lg.start, commitHeader lg m) ::
      (homeWrites lg m.bread ++ [(lg.start, clearedHeader (commitHeader lg m))])) := by
  have hlog : writeLog lg m = m.writes (logWrites lg m) :=
    copyBlocks_eq m fun i hi j hj => hlg.home_ne hi hj
  have hhead : writeHead lg (writeLog lg m)
      = m.writes (logWrites lg m ++ [(lg.start, commitHeader lg m)]) := by
    rw [hlog, writeHead, Machine.bread_writes, logWrites_of_ne hlg m m.bread (Or.inl rfl),
      ← Machine.writes_append]
    rfl
  have hview : (writeHead lg (writeLog lg m)).bread
      = Function.update (applyWrites (logWrites lg m) m.bread) lg.start (commitHeader lg m) := by
    rw [hhead, Machine.bread_writes, applyWrites_append]
    rfl
  have hcom := committed_commitHeader hlg m (d := m.bread) fun _ _ _ => rfl
  have hinst := hcom.installTrans_eq hlg lg rfl rfl (fun _ _ => rfl) _ hview
  have hstart : (installTrans lg (writeHead lg (writeLog lg m))).bread lg.start
      = commitHeader lg m := by
    rw [hinst, Machine.bread_writes, homeWrites, applyWrites_graph, if_neg hlg.start_notMem, hview,
      Function.update_self]
  rw [commit, if_pos hlg.pos]
  simp only [writeHead_clear, hstart]
  rw [hinst, hhead, Machine.writes_append, Machine.writes_append, List.append_assoc]
  rfl

theorem commitWrites_eq :
    commitWrites lg m = logWrites lg m ++ (lg.start, commitHeader lg m) ::
      (homeWrites lg m.bread ++ [(lg.start, clearedHeader (commitHeader lg m))]) := by
  rw [commitWrites, commit_eq hlg, Machine.io_writes]
  rfl

theorem start_mem_take_commitWrites (k : Nat) :
    lg.start ∈ ((commitWrites lg m).take k).map Prod.fst ↔ lg.lh.n < k := by
  have hnot : lg.start ∉ (logWrites lg m).map Prod.fst := by
    intro hm
    obtain ⟨i, _, he⟩ := mem_logWrites_fst.mp hm
    omega
  rw [commitWrites_eq hlg, List.take_append, List.map_append, List.mem_append,
    logWrites_length]
  constructor
  · rintro (h | h)
    · rw [List.map_take] at h
      exact absurd (List.mem_of_mem_take h) hnot
    · by_contra hk
      rw [show k - lg.lh.n = 0 by omega] at h
      simp at h
  · intro hk
    right
    rw [show k - lg.lh.n = (k - lg.lh.n - 1) + 1 by omega, List.take_succ_cons, List.map_cons]
    exact List.mem_cons_self

theorem commit_cut_before (hk : k ≤ lg.lh.n)
    (h0 : loopBound ((m.disk lg.start).uint 0) = 0) :
    Clean lg m.disk (cutOff (commitWrites lg m) k m.disk) := by
  rw [cutOff, commitWrites_eq hlg, List.take_append_of_le_length (by rw [logWrites_length]; exact hk)]
  refine ⟨?_, fun b hb => logWrites_take_of_ne hlg m k _ (Or.inr hb)⟩
  rw [logWrites_take_of_ne hlg m k _ (Or.inl rfl), h0]

theorem commit_cut_after (hk : lg.lh.n < k)
    (hm : ∀ b, b ∉ lg.lh.blocks → m.bread b = m.disk b) :
    Committed lg m.bread (cutOff (commitWrites lg m) k m.disk) ∨
      Clean lg m.bread (cutOff (commitWrites lg m) k m.disk) := by
  have hcom := committed_commitHeader hlg m (d := m.disk) fun b _ hbl => (hm b hbl).symm
  have hcut := hcom.cut hlg (commitHeader lg m) (k - lg.lh.n - 1)
  have he : cutOff (commitWrites lg m) k m.disk =
      cutOff (homeWrites lg m.bread ++ [(lg.start, clearedHeader (commitHeader lg m))])
        (k - lg.lh.n - 1)
        (Function.update (applyWrites (logWrites lg m) m.disk) lg.start (commitHeader lg m)) := by
    rw [cutOff, cutOff, commitWrites_eq hlg, List.take_append,
      List.take_of_length_le (by rw [logWrites_length]; omega), logWrites_length,
      show k - lg.lh.n = (k - lg.lh.n - 1) + 1 by omega, List.take_succ_cons, applyWrites_append]
    rfl
  rw [he]
  exact hcut

end

end

/-! ## The theorem -/

/-- **Crash atomicity.**  Cut a commit off after any number of its writes, and
the recoveries after it too, any number of times. After the first recovery that
completes, every home block is as before the commit, or every home block listed
has the contents of its buffer and the others are unchanged. The second is the
case exactly when the first write of the header block had reached the disk. -/
theorem commit_crash_atomic (lg : Log) (m : Machine) (k : Nat) (cuts : List Nat)
    (hlg : lg.Ready) (hheader : loopBound ((m.disk lg.start).uint 0) = 0)
    (hcache : ∀ b, b ∉ lg.lh.blocks → m.bread b = m.disk b) :
    let d := afterCrashes lg.boot cuts (cutOff (commitWrites lg m) k m.disk)
    if lg.start ∈ ((commitWrites lg m).take k).map Prod.fst then
      (∀ b ∈ lg.lh.blocks, d b = m.bread b) ∧
        ∀ b, ¬ lg.InArea b → b ∉ lg.lh.blocks → d b = m.disk b
    else ∀ b, ¬ lg.InArea b → d b = m.disk b := by
  intro d
  by_cases hk : lg.lh.n < k
  · rw [if_pos ((start_mem_take_commitWrites hlg m k).mpr hk)]
    have hd : Clean lg m.bread d := by
      rcases commit_cut_after hlg m hk hcache with h | h
      · exact h.afterCrashes hlg cuts
      · exact h.afterCrashes hlg cuts
    refine ⟨fun b hb => hd.home b (hlg.out b hb), fun b hb hbl => ?_⟩
    rw [hd.home b hb, hcache b hbl]
  · rw [if_neg (fun h => hk ((start_mem_take_commitWrites hlg m k).mp h))]
    have hd := (commit_cut_before hlg m (Nat.le_of_not_lt hk) hheader).afterCrashes hlg cuts
    exact fun b hb => hd.home b hb

/-- A transaction of one block, with the log area of an image. -/
def oneBlockLog : Log :=
  ⟨2, LOGSIZE, 0, true, ⟨1, (Vector.replicate LOGSIZE 0).set 0 60⟩⟩

def oneBlockMachine : Machine :=
  ⟨fun _ => zeroBlock, fun b => if b = 60 then some fun _ => 1 else none, []⟩

theorem oneBlockLog_blocks : oneBlockLog.lh.blocks = [60] := by decide

/-- The commit of one block, cut off right after the header write, with two
recoveries cut off after it. -/
theorem commit_crash_atomic_one_block : afterCrashes oneBlockLog.boot [0, 1]
      (cutOff (commitWrites oneBlockLog oneBlockMachine) 2 oneBlockMachine.disk) 60
        = (fun _ => 1 : Block) := by
  have hlg : oneBlockLog.Ready :=
    ⟨by decide, by decide, by decide, by decide, by rw [oneBlockLog_blocks]; decide⟩
  have hheader : loopBound ((oneBlockMachine.disk oneBlockLog.start).uint 0) = 0 := by
    rw [show oneBlockMachine.disk oneBlockLog.start = zeroBlock from rfl, Block.uint_zeroBlock]
    rfl
  have h := commit_crash_atomic oneBlockLog oneBlockMachine 2 [0, 1] hlg hheader (by
    intro b hb
    rw [oneBlockLog_blocks, List.mem_singleton] at hb
    simp [Machine.bread, oneBlockMachine, hb])
  rw [if_pos ((start_mem_take_commitWrites hlg _ _).mpr (by decide))] at h
  exact h.1 60 (by rw [oneBlockLog_blocks]; decide)

end Xv6
