import Xv6.Fs.ByteArray
import Xv6.Fs.FileSpec

/-!
# Writing through a descriptor

`filewrite` cuts its buffer in pieces and writes each one in a transaction of its
own. The inode is locked from where the offset of the file is read to where it is
advanced, so the locked section of a piece is one step, whatever other operations
are in progress, and `lockedWrite` is that section.
-/

namespace Xv6

open Hoare Table Bytes

variable {s t : Fs} {f : Fin NFILE} {k : Fin NINODE} {i : Nat}

/-! ## The locked section -/

/-- What `filewrite` does between `ilock` and `iunlock`, with both of them. -/
def lockedWrite (f : Fin NFILE) (src : List UInt8) : Kern Int := do
  let ff ← file f
  ilock ff.ip
  let r ← writei ff.ip src ff.off
  (if 0 < r then setFile f fun fl => { fl with off := (fl.off + r.toNat) % 2 ^ 32 }
  else return ())
  iunlock ff.ip
  return r

/-- The file `f` is open for writing on the regular file `i`, whose cache entry `k`
nobody has locked. -/
structure Fs.Writes (s : Fs) (f : Fin NFILE) (k : Fin NINODE) (i : Nat) : Prop where
  tidy : s.Tidy
  type : (s.ftable f).type = .inode
  writable : (s.ftable f).writable = true
  ip : (s.ftable f).ip = k
  ref : 1 ≤ (s.icache k).ref
  unlocked : (s.icache k).lock = none
  inum : (s.icache k).inum = i
  lt : i < s.sb.ninodes
  loaded : (s.icache k).valid = true → (s.icache k).din = s.dinode i
  file : (s.dinode i).type = T_FILE

def Fs.locked (s : Fs) (k : Fin NINODE) : Fs :=
  s.setInode k fun ip => { ip with lock := some s.cur, valid := true, din := s.dinode ip.inum }

theorem ilock_locked (h : s.Writes f k i) (E : Stop → Prop) :
    Wp (ilock k) s (fun _ t => t = s.locked k) E := by
  have hfile : (s.dinode i).type ≠ 0 := by
    rw [h.file]
    decide
  unfold ilock acquiresleep
  simp only [wp_bind, wp_inode]
  refine wp_ite (fun hc => absurd hc (by have := h.ref; omega)) fun _ => ?_
  simp only [wp_bind, wp_get]
  refine wp_ite (fun hc => by rw [h.unlocked] at hc; cases hc) fun _ => ?_
  simp only [wp_setInode, wp_inode, Fs.icache_setInode, upd_same]
  refine wp_ite (fun hv => ?_) fun _ => ?_
  · -- The inode is in memory already, and is the one on disk.
    have hv : (s.icache k).valid = true := hv
    refine wp_pure.mpr ?_
    unfold Fs.locked Fs.setInode
    dsimp only
    rw [h.inum, ← h.loaded hv, ← hv]
  · simp only [wp_bind, wp_get, wp_setInode, Fs.icache_setInode, upd_same]
    rw [h.inum]
    refine wp_ite (fun hc => absurd hc hfile) fun _ => wp_pure.mpr ?_
    unfold Fs.locked Fs.setInode
    dsimp only
    rw [upd_same, upd_upd, h.inum]
    rfl

theorem Fs.Writes.loaded_locked (h : s.Writes f k i) : (s.locked k).Loaded k i := by
  have hne : (s.dinode i).type ≠ 0 ∧ (s.dinode i).type ≠ T_DEV := by
    rw [h.file]
    decide
  refine ⟨h.tidy.geom, h.tidy.owned, h.lt, ?_, ?_, hne.1, hne.2, h.tidy.noHoles i h.lt hne.1 hne.2⟩
  · rw [Fs.locked, Fs.icache_setInode, upd_same]
    exact h.inum
  · rw [Fs.locked, Fs.icache_setInode, upd_same, h.inum]
    rfl

/-- The file table after the offset of `f` advanced by `n`. -/
def Fs.advanced (s : Fs) (f : Fin NFILE) (n : Nat) : Fin NFILE → File :=
  upd s.ftable f { s.ftable f with off := (s.ftable f).off + n }

/-- What a piece that fits leaves behind. -/
structure Wrote (s : Fs) (f : Fin NFILE) (k : Fin NINODE) (i : Nat) (src : List UInt8) (t : Fs) :
    Prop where
  writes : t.Writes f k i
  sb : t.sb = s.sb
  bytes : t.bytes i = (s.bytes i).take (s.ftable f).off ++ src ++
    (s.bytes i).drop ((s.ftable f).off + src.length)
  ftable : t.ftable = s.advanced f src.length
  others : ∀ j < s.sb.ninodes, j ≠ i →
    t.dinode j = s.dinode j ∧ ((s.dinode j).type ≠ 0 → t.bytes j = s.bytes j)

def Fs.unlocked (s : Fs) (k : Fin NINODE) : Fs := s.setInode k fun ip => { ip with lock := none }

variable {src : List UInt8} {e : Dinode}

theorem Stored.wrote (h : s.Writes f k i) (hs : Stored (s.locked k) k i (s.ftable f).off src t e)
    (hfit : (s.dinode i).Fits (s.ftable f).off src.length) :
    Wrote s f k i src (({ t with ftable := s.advanced f src.length } : Fs).unlocked k) := by
  have hsb : t.sb = s.sb := hs.frame.sb
  have hd : t.dinode i = e := by rw [hs.table i h.lt, upd_same]
  have hlocked : (s.locked k).icache k =
      { s.icache k with lock := some s.cur, valid := true, din := s.dinode (s.icache k).inum } := by
    rw [Fs.locked, Fs.icache_setInode, upd_same]
  have htidy := hs.tidy (s := s.locked k) ⟨h.tidy.geom, h.tidy.owned, h.tidy.noHoles⟩
  obtain ⟨u, hu⟩ : ∃ u, u = ({ t with ftable := s.advanced f src.length } : Fs).unlocked k :=
    ⟨_, rfl⟩
  have hfile : u.ftable = s.advanced f src.length := by
    rw [hu]
    rfl
  have hentry : u.icache k = { s.icache k with lock := none, valid := true, din := e } := by
    rw [hu, Fs.unlocked, Fs.icache_setInode, upd_same, hs.icache, Fs.withDin, upd_same, hlocked]
  have hdisk : u.sb = s.sb ∧ u.Tidy ∧ (∀ j, u.dinode j = t.dinode j) ∧ ∀ j, u.bytes j = t.bytes j := by
    rw [hu]
    exact ⟨hsb, ⟨htidy.geom, htidy.owned, htidy.noHoles⟩, fun _ => rfl, fun _ => rfl⟩
  obtain ⟨husb, hutidy, hud, hub⟩ := hdisk
  rw [← hu]
  refine ⟨⟨hutidy, ?_, ?_, ?_, ?_, ?_, ?_, ?_, fun _ => ?_, ?_⟩, husb, ?_, hfile, fun j hj hne => ?_⟩
  · rw [hfile, Fs.advanced, upd_same]
    exact h.type
  · rw [hfile, Fs.advanced, upd_same]
    exact h.writable
  · rw [hfile, Fs.advanced, upd_same]
    exact h.ip
  · rw [hentry]
    exact h.ref
  · rw [hentry]
  · rw [hentry]
    exact h.inum
  · rw [husb]
    exact h.lt
  · rw [hentry, hud, hd]
  · rw [hud, hd, hs.fields]
    exact h.file
  · rw [hub]
    exact hs.bytes h.lt hfit.1
  · have hother := hs.bytes_other (s := s.locked k) hj hne
    rw [hud, hub]
    exact hother

theorem iunlock_unlocked (hlock : (s.icache k).lock = some s.cur) (href : 1 ≤ (s.icache k).ref)
    (E : Stop → Prop) : Wp (iunlock k) s (fun _ t => t = s.unlocked k) E := by
  unfold iunlock Fs.holdingsleep
  rw [wp_bind, wp_get, hlock]
  refine wp_ite (fun hc => ?_) fun _ => wp_releasesleep.mpr rfl
  rcases hc with hc | hc
  · simp at hc
  · omega

/-- The state after `if(r > 0) f->off += r`. -/
def Fs.advance (s : Fs) (f : Fin NFILE) (r : Int) : Fs :=
  if 0 < r then s.setFile f fun fl => { fl with off := (fl.off + r.toNat) % 2 ^ 32 } else s

theorem Fs.advance_eq (hft : t.ftable = s.ftable) (hoff : (s.ftable f).off + src.length < 2 ^ 32) :
    t.advance f src.length = { t with ftable := s.advanced f src.length } := by
  unfold Fs.advance Fs.advanced
  split
  · unfold Fs.setFile
    rw [hft, Int.toNat_natCast]
    dsimp only
    rw [Nat.mod_eq_of_lt hoff]
  · have hlen : src.length = 0 := by omega
    rw [hlen, Nat.add_zero, upd_eq_self, ← hft]

theorem lockedWrite_rule (h : s.Writes f k i) {R : Int → Fs → Prop}
    {E : Stop → Prop} (hw : Wp (writei k src (s.ftable f).off) (s.locked k) R E)
    (hlock : ∀ r t, R r t → (t.icache k).lock = some t.cur ∧ 1 ≤ (t.icache k).ref) :
    Wp (lockedWrite f src) s (fun r u => ∃ t, R r t ∧ u = (t.advance f r).unlocked k) E := by
  unfold lockedWrite
  simp only [wp_bind, wp_file]
  rw [h.ip]
  refine (ilock_locked h _).imp ?_
  rintro _ _ rfl
  refine hw.imp fun r t hr => ?_
  have hadvance : Wp (if 0 < r then setFile f fun fl => { fl with off := (fl.off + r.toNat) % 2 ^ 32 }
      else return ()) t (fun _ u => u = t.advance f r) E := by
    unfold Fs.advance
    split
    · exact wp_setFile.mpr rfl
    · exact wp_pure.mpr rfl
  refine hadvance.imp ?_
  rintro _ _ rfl
  have hsame : (t.advance f r).icache = t.icache ∧ (t.advance f r).cur = t.cur := by
    unfold Fs.advance
    split <;> exact ⟨rfl, rfl⟩
  obtain ⟨hl, href⟩ := hlock r t hr
  refine (iunlock_unlocked (by rw [hsame.1, hsame.2]; exact hl) (by rw [hsame.1]; exact href) _).imp ?_
  rintro _ _ rfl
  exact wp_pure.mpr ⟨t, hr, rfl⟩

/-- What the locked section does: it writes the piece at the offset of the file and
advances it, or only gives the lock back if the piece does not fit. -/
def LockedPost (s : Fs) (f : Fin NFILE) (k : Fin NINODE) (i : Nat) (src : List UInt8) (r : Int)
    (t : Fs) : Prop :=
  (¬ (s.dinode i).Fits (s.ftable f).off src.length ∧ r = -1 ∧ t = (s.locked k).unlocked k) ∨
  ((s.dinode i).Fits (s.ftable f).off src.length ∧ r = src.length ∧ Wrote s f k i src t ∧
    t.log = { s.log with lh := t.log.lh })

theorem Fs.icache_locked (s : Fs) (k : Fin NINODE) : (s.locked k).icache k =
    { s.icache k with lock := some s.cur, valid := true, din := s.dinode (s.icache k).inum } := by
  rw [Fs.locked, Fs.icache_setInode, upd_same]

theorem Stored.keepsLock (h : s.Writes f k i) (hs : Stored (s.locked k) k i (s.ftable f).off src t e) :
    (t.icache k).lock = some t.cur ∧ 1 ≤ (t.icache k).ref := by
  rw [hs.icache, Fs.withDin, upd_same, Fs.icache_locked]
  exact ⟨congrArg some hs.frame.cur.symm, h.ref⟩

theorem Stored.lockedPost (h : s.Writes f k i) (hs : Stored (s.locked k) k i (s.ftable f).off src t e)
    (hfit : (s.dinode i).Fits (s.ftable f).off src.length) :
    LockedPost s f k i src src.length ((t.advance f src.length).unlocked k) := by
  have hmax : MAXFILE * BSIZE < 2 ^ 32 := by decide
  rw [Fs.advance_eq hs.frame.ftable (Nat.lt_of_le_of_lt hfit.2 hmax)]
  exact .inr ⟨hfit, rfl, hs.wrote h hfit, hs.frame.log⟩

theorem lockedWrite_tooFar (h : s.Writes f k i)
    (hno : ¬ (s.dinode i).Fits (s.ftable f).off src.length) (E : Stop → Prop) :
    Wp (lockedWrite f src) s (fun r t => r = -1 ∧ t = (s.locked k).unlocked k) E := by
  refine (lockedWrite_rule h (writei_tooFar h.loaded_locked (Fs.tooFar_iff.mpr hno) E) ?_).imp ?_
  · rintro _ _ ⟨rfl, rfl⟩
    rw [Fs.icache_locked]
    exact ⟨rfl, h.ref⟩
  · rintro _ _ ⟨_, ⟨rfl, rfl⟩, rfl⟩
    exact ⟨rfl, rfl⟩

theorem lockedWrite_spec (h : s.Writes f k i) (hop : s.InOp) (src : List UInt8) :
    Wp (lockedWrite f src) s (LockedPost s f k i src) Stop.scarce := by
  by_cases hfit : (s.dinode i).Fits (s.ftable f).off src.length
  · have hw : Wp (writei k src (s.ftable f).off) (s.locked k) (fun r t => r = src.length ∧
        ∃ e, Stored (s.locked k) k i (s.ftable f).off src t e) Stop.scarce := by
      refine (writei_stored h.loaded_locked hop src (s.ftable f).off).imp ?_
      rintro r t (⟨hno, -⟩ | ⟨-, hr, hst, -⟩)
      · exact absurd hfit hno
      · exact ⟨hr, hst⟩
    refine (lockedWrite_rule h hw ?_).imp ?_
    · rintro r t ⟨-, e, hst⟩
      exact hst.keepsLock h
    · rintro r u ⟨t, ⟨rfl, e, hst⟩, rfl⟩
      exact hst.lockedPost h hfit
  · refine (lockedWrite_tooFar h hfit _).imp ?_
    rintro r t ⟨hr, ht⟩
    exact .inl ⟨hfit, hr, ht⟩

variable {P : Finset Nat}

theorem lockedWrite_total (h : s.Writes f k i) (hop : s.InOp) (src : List UInt8)
    (hlog : s.LogRoom (2 * blocksOf (s.ftable f).off src.length + 4))
    (hP : touched (s.ftable f).off src.length ⊆ P) (henough : Enough P (s.dinode i) s) :
    Wp (lockedWrite f src) s (fun _ t => Enough P (t.dinode i) t) fun _ => False := by
  have hl := h.loaded_locked
  have hw : Wp (writei k src (s.ftable f).off) (s.locked k) (fun _ t =>
      ((t.icache k).lock = some t.cur ∧ 1 ≤ (t.icache k).ref) ∧ Enough P (t.dinode i) t)
      fun _ => False := by
    have henough' : Enough P ((s.locked k).dinode i) (s.locked k) :=
      henough.congr (fun _ => rfl) (Fs.free_congr rfl fun _ _ => rfl)
    have hroom := writei_roomy hl hop (s.ftable f).off src hlog
    have hen := writei_enough hl hop (s.ftable f).off src hP henough'
    have hst := writei_stored hl hop src (s.ftable f).off
    refine ((hroom.and hen).and hst).mono ?_ fun e he => he.1.1 he.1.2
    rintro r t ⟨⟨-, hen⟩, ⟨-, -, hts⟩ | ⟨-, -, ⟨e, hst⟩, -⟩⟩
    · refine ⟨?_, by rw [hts]; exact henough'⟩
      rw [hts, Fs.icache_locked]
      exact ⟨rfl, h.ref⟩
    · have hdin : (t.icache k).din = t.dinode i := by
        rw [hst.icache, Fs.withDin, upd_same, hst.table i h.lt, upd_same]
      rw [hdin] at hen
      exact ⟨hst.keepsLock h, hen⟩
  refine (lockedWrite_rule h hw fun _ _ hr => hr.1).imp ?_
  rintro r _ ⟨t, ⟨-, hen⟩, rfl⟩
  obtain ⟨hsb, hblk⟩ : (t.advance f r).sb = t.sb ∧ (t.advance f r).blk = t.blk := by
    unfold Fs.advance
    split <;> exact ⟨rfl, rfl⟩
  have hd : ((t.advance f r).unlocked k).dinode i = t.dinode i := by
    unfold Fs.dinode
    rw [Fs.unlocked, Fs.blk_setInode, Fs.sb_setInode, hsb, hblk]
  refine hen.congr (fun p => ?_) (Fs.free_congr hsb fun b _ => ?_)
  · rw [hd, Fs.unlocked, Fs.blk_setInode, hblk]
  · rw [Fs.unlocked, Fs.blk_setInode, hblk]

/-! ## The loop of `filewrite` -/

/-- The locked section in a transaction of its own. -/
def transactWrite (f : Fin NFILE) (src : List UInt8) : Kern Int := do
  beginOp
  let r ← lockedWrite f src
  endOp
  return r

variable {n1 : Nat}

theorem filewriteFrom_succ {fuel : Nat} (h0 : src.length ≠ 0) (hn : n1 = min src.length filewriteMax) :
    filewriteFrom f (fuel + 1) src = (do
      let r ← transactWrite f (src.take n1)
      if r < 0 then return false
      else if r ≠ (n1 : Int) then panic .shortFilewrite
      else filewriteFrom f fuel (src.drop n1)) := by
  rw [filewriteFrom, if_neg h0, ← hn]
  simp only [transactWrite, lockedWrite, bind_assoc, pure_bind]

/-- No operation is in progress, and the log is the one `mkfs` makes. -/
structure Fs.AtRest (s : Fs) : Prop where
  idle : LogIdle false s.log
  size : LOGSIZE ≤ s.log.size

/-- The state after `begin_op` from rest. -/
def Fs.begun (s : Fs) : Fs := { s with log := { s.log with outstanding := 1 } }

theorem beginOp_begun (h : s.AtRest) (E : Stop → Prop) : Wp beginOp s (fun _ t => t = s.begun) E := by
  obtain ⟨hout, hn⟩ := h.idle.idle rfl
  unfold beginOp
  rw [wp_bind, wp_get]
  refine wp_ite (fun hc => ?_) fun _ => wp_ite (fun hc => ?_) fun _ => wp_set.mpr ?_
  · rw [h.idle.committing] at hc
    cases hc
  · unfold Log.full at hc
    rw [hout, hn] at hc
    exact absurd hc (by decide)
  · unfold Fs.begun
    rw [hout]
    rfl

theorem endOp_rest (hlog : t.log = { s.begun.log with lh := t.log.lh }) (h : s.AtRest)
    (E : Stop → Prop) : Wp endOp t (fun _ u => u.AtRest ∧ u = { t with log := u.log }) E := by
  have hcommit : t.log.committing = false := by
    rw [hlog]
    exact h.idle.committing
  have hout : t.log.outstanding = 1 := by rw [hlog]; rfl
  have hsize : LOGSIZE ≤ t.log.size := by
    rw [hlog]
    exact h.size
  unfold endOp
  rw [wp_bind, wp_get]
  refine wp_ite (fun hc => ?_) fun _ => wp_ite (fun _ => wp_set.mpr ?_) fun hc => absurd ?_ hc
  · rw [hcommit] at hc
    cases hc
  · exact ⟨⟨⟨hcommit, fun _ => ⟨by rw [Log.clear, hout]; rfl, rfl⟩, nofun⟩, hsize⟩, rfl⟩
  · rw [hout]
    rfl

theorem Fs.Writes.withLog (h : s.Writes f k i) (lg : Log) : ({ s with log := lg } : Fs).Writes f k i :=
  ⟨⟨h.tidy.geom, h.tidy.owned, h.tidy.noHoles⟩, h.type, h.writable, h.ip, h.ref, h.unlocked, h.inum, h.lt,
    h.loaded, h.file⟩

theorem Wrote.withLog {lg : Log} (h : Wrote { s with log := lg } f k i src t)
    (lg' : Log) : Wrote s f k i src { t with log := lg' } :=
  ⟨h.writes.withLog lg', h.sb, h.bytes, h.ftable, h.others⟩

theorem Wrote.nil (h : s.Writes f k i) : Wrote s f k i [] s := by
  refine ⟨h, rfl, ?_, (upd_eq_self _ _).symm, fun _ _ _ => ⟨rfl, fun _ => rfl⟩⟩
  rw [List.append_nil, List.length_nil, Nat.add_zero, List.take_append_drop]

theorem Wrote.refused (h : s.Writes f k i) : Wrote s f k i [] ((s.locked k).unlocked k) := by
  have hnil := Wrote.nil h
  have hentry : ((s.locked k).unlocked k).icache k =
      { s.icache k with lock := none, valid := true, din := s.dinode (s.icache k).inum } := by
    rw [Fs.unlocked, Fs.icache_setInode, upd_same, Fs.icache_locked]
  refine ⟨⟨⟨h.tidy.geom, h.tidy.owned, h.tidy.noHoles⟩, h.type, h.writable, h.ip, ?_, ?_, ?_, h.lt,
    fun _ => ?_, h.file⟩, rfl, hnil.bytes, hnil.ftable, hnil.others⟩
  · rw [hentry]
    exact h.ref
  · rw [hentry]
  · rw [hentry]
    exact h.inum
  · rw [hentry, h.inum]
    rfl

theorem Wrote.trans {a b : List UInt8} {u : Fs} (h1 : Wrote s f k i a t) (h2 : Wrote t f k i b u)
    (hoff : (s.ftable f).off ≤ (s.bytes i).length) : Wrote s f k i (a ++ b) u := by
  have hpos : (t.ftable f).off = (s.ftable f).off + a.length := by
    rw [h1.ftable, Fs.advanced, upd_same]
  have hlen : ((s.bytes i).take (s.ftable f).off ++ a).length = (s.ftable f).off + a.length := by
    rw [List.length_append, List.length_take, Nat.min_eq_left hoff]
  refine ⟨h2.writes, h2.sb.trans h1.sb, ?_, ?_, fun j hj hne => ?_⟩
  · have hb := h2.bytes
    rw [hpos, h1.bytes, ← hlen, List.take_left, ← List.drop_drop, List.drop_left, List.drop_drop,
      hlen] at hb
    rw [hb, List.length_append, List.append_assoc _ a b, Nat.add_assoc]
  · rw [h2.ftable, Fs.advanced, hpos, h1.ftable, Fs.advanced, Fs.advanced, upd_upd, upd_same,
      List.length_append, Nat.add_assoc]
  · obtain ⟨hd, hb⟩ := h1.others j hj hne
    obtain ⟨hd', hb'⟩ := h2.others j (by rw [h1.sb]; exact hj) hne
    exact ⟨hd'.trans hd, fun ht => (hb' (by rw [hd]; exact ht)).trans (hb ht)⟩

/-- How much of `n` bytes at `off` is stored: all of it if it fits, and otherwise the
whole pieces that fit. -/
def storedLen (off n : Nat) : Nat :=
  if off + n ≤ MAXFILE * BSIZE then n
  else (MAXFILE * BSIZE - off) / filewriteMax * filewriteMax

variable {n : Nat}

theorem storedLen_succ {off : Nat} (hn : n1 = min n filewriteMax)
    (hfit : off + n1 ≤ MAXFILE * BSIZE) : storedLen off n = n1 + storedLen (off + n1) (n - n1) := by
  unfold storedLen
  by_cases hall : off + n ≤ MAXFILE * BSIZE
  · rw [if_pos hall, if_pos (by omega)]
    omega
  · have hmax : n1 = filewriteMax := by omega
    rw [if_neg hall, if_neg (by omega), hmax,
      show MAXFILE * BSIZE - off = MAXFILE * BSIZE - (off + filewriteMax) + filewriteMax by omega,
      Nat.add_div_right _ (by decide), Nat.succ_mul, Nat.add_comm]

theorem storedLen_zero {off : Nat} (hn : n1 = min n filewriteMax)
    (hfar : MAXFILE * BSIZE < off + n1) : storedLen off n = 0 := by
  have hpos : 0 < filewriteMax := by decide
  unfold storedLen
  rw [if_neg (by omega), Nat.div_eq_of_lt (by omega), Nat.zero_mul]

theorem blocksOf_piece (off : Nat) (h : n ≤ filewriteMax) : blocksOf off n ≤ 4 := by
  have hmax : filewriteMax = 1536 := by decide
  unfold blocksOf
  simp only [BSIZE]
  split <;> omega

theorem transactWrite_total (h : s.Writes f k i) (hrest : s.AtRest)
    (hle : src.length ≤ filewriteMax) (hfit : (s.dinode i).Fits (s.ftable f).off src.length)
    (hP : touched (s.ftable f).off src.length ⊆ P) (henough : Enough P (s.dinode i) s) :
    Wp (transactWrite f src) s (fun r t => r = src.length ∧ Wrote s f k i src t ∧ t.AtRest ∧
      Enough P (t.dinode i) t) fun _ => False := by
  unfold transactWrite
  have hbegun : s.begun.Writes f k i := h.withLog _
  have hop : s.begun.InOp := show (1 : Int) ≤ 1 by decide
  have hroom : s.begun.LogRoom (2 * blocksOf (s.ftable f).off src.length + 4) := by
    have hn : s.begun.log.lh.n = 0 := (hrest.idle.idle rfl).2
    have hsize : LOGSIZE ≤ s.begun.log.size := hrest.size
    have hlog : LOGSIZE = 30 := rfl
    have := blocksOf_piece (s.ftable f).off hle
    unfold Fs.LogRoom
    omega
  refine (beginOp_begun hrest _).seq ?_
  rintro _ _ rfl
  have htotal := lockedWrite_total hbegun hop src hroom hP
    (henough.congr (fun _ => rfl) (Fs.free_congr rfl fun _ _ => rfl))
  refine (htotal.and (lockedWrite_spec hbegun hop src)).bind ?_ fun _ he => he.1
  rintro r t ⟨hen, ⟨hno, -⟩ | ⟨-, hr, hw, hlog⟩⟩
  · exact absurd hfit hno
  refine (endOp_rest hlog hrest _).seq ?_
  rintro _ u ⟨hu, hut⟩
  refine wp_pure.mpr ⟨hr, ?_, hu, ?_⟩
  · rw [hut]
    exact hw.withLog u.log
  · rw [hut]
    exact hen.congr (fun _ => rfl) (Fs.free_congr rfl fun _ _ => rfl)

theorem transactWrite_tooFar (h : s.Writes f k i) (hrest : s.AtRest)
    (hno : ¬ (s.dinode i).Fits (s.ftable f).off src.length) :
    Wp (transactWrite f src) s (fun r t => r = -1 ∧ Wrote s f k i [] t ∧ t.AtRest) fun _ => False := by
  unfold transactWrite
  have hbegun : s.begun.Writes f k i := h.withLog _
  refine (beginOp_begun hrest _).seq ?_
  rintro _ _ rfl
  refine (lockedWrite_tooFar hbegun hno _).seq ?_
  rintro r _ ⟨hr, rfl⟩
  refine (endOp_rest (t := (s.begun.locked k).unlocked k) rfl hrest _).seq ?_
  rintro _ u ⟨hu, hut⟩
  refine wp_pure.mpr ⟨hr, ?_, hu⟩
  rw [hut]
  exact (Wrote.refused hbegun).withLog u.log

/-- What the loop of `filewrite` ensures. -/
def FilewritePost (s : Fs) (f : Fin NFILE) (k : Fin NINODE) (i : Nat) (src : List UInt8) (b : Bool)
    (t : Fs) : Prop :=
  (b = true ↔ (s.ftable f).off + src.length ≤ MAXFILE * BSIZE) ∧
    Wrote s f k i (src.take (storedLen (s.ftable f).off src.length)) t

theorem filewritePost_nil (h : s.Writes f k i) (hoff : (s.ftable f).off ≤ (s.bytes i).length) :
    FilewritePost s f k i [] true s := by
  have hsize : (s.bytes i).length ≤ MAXFILE * BSIZE := by
    rw [Fs.length_bytes]
    exact h.loaded_locked.noHoles.1
  refine ⟨⟨fun _ => hoff.trans hsize, fun _ => rfl⟩, ?_⟩
  rw [List.take_nil]
  exact Wrote.nil h

theorem filewriteFrom_total (fuel : Nat) : ∀ (src : List UInt8) (s : Fs),
    src.length ≤ fuel → s.Writes f k i → s.AtRest → (s.ftable f).off ≤ (s.bytes i).length →
    touched (s.ftable f).off (min src.length (MAXFILE * BSIZE - (s.ftable f).off)) ⊆ P →
    Enough P (s.dinode i) s →
    Wp (filewriteFrom f fuel src) s (FilewritePost s f k i src) fun _ => False := by
  induction fuel with
  | zero =>
    intro src s hfuel h _ hoff _ _
    have hnil : src = [] := List.length_eq_zero_iff.mp (Nat.le_zero.mp hfuel)
    rw [hnil]
    exact wp_pure.mpr (filewritePost_nil h hoff)
  | succ fuel ih =>
    intro src s hfuel h hrest hoff hP hen
    by_cases h0 : src.length = 0
    · have hnil : src = [] := List.length_eq_zero_iff.mp h0
      rw [filewriteFrom, if_pos h0, hnil]
      exact wp_pure.mpr (filewritePost_nil h hoff)
    obtain ⟨n1, hn⟩ : ∃ n1, n1 = min src.length filewriteMax := ⟨_, rfl⟩
    have hpos : 0 < filewriteMax := by decide
    have hlen : (src.take n1).length = n1 := by rw [List.length_take]; omega
    have hle : (src.take n1).length ≤ filewriteMax := by omega
    rw [filewriteFrom_succ h0 hn]
    have hsize : (s.bytes i).length = (s.dinode i).size.toNat := Fs.length_bytes s i
    by_cases hfit : (s.ftable f).off + n1 ≤ MAXFILE * BSIZE
    · have htouch : touched (s.ftable f).off (src.take n1).length ⊆ P :=
        (touched_mono (Nat.le_refl _) (by omega)).trans hP
      refine (transactWrite_total h hrest hle ⟨by omega, by omega⟩ htouch hen).seq ?_
      rintro r t ⟨hr, hw, hrest', hen'⟩
      have hoff' : (t.ftable f).off = (s.ftable f).off + n1 := by
        rw [hw.ftable, Fs.advanced, upd_same, hlen]
      have hlen' : (t.bytes i).length = max (s.bytes i).length ((s.ftable f).off + n1) := by
        rw [hw.bytes]
        simp only [List.length_append, List.length_take, List.length_drop]
        omega
      have hdrop : (src.drop n1).length = src.length - n1 := List.length_drop
      refine wp_ite (fun hc => absurd hc (by omega)) fun _ => wp_ite (fun hc => absurd hc (by omega))
        fun _ => ?_
      refine (ih (src.drop n1) t (by omega) hw.writes hrest' (by omega) ?_ hen').imp ?_
      · rw [hoff', hdrop]
        exact (touched_mono (by omega) (by omega)).trans hP
      · rintro b u ⟨hb, hu⟩
        rw [hoff', hdrop] at hb hu
        refine ⟨hb.trans (by omega), ?_⟩
        rw [storedLen_succ hn hfit, List.take_add]
        exact hw.trans hu hoff
    · have hno : ¬ (s.dinode i).Fits (s.ftable f).off (src.take n1).length := fun hc =>
        hfit (by rw [← hlen]; exact hc.2)
      refine (transactWrite_tooFar h hrest hno).seq ?_
      rintro r t ⟨hr, hw, -⟩
      refine wp_ite (fun _ => wp_pure.mpr ⟨⟨nofun, fun hc => absurd hc (by omega)⟩, ?_⟩)
        fun hc => absurd (by omega) hc
      rw [storedLen_zero hn (by omega), List.take_zero]
      exact hw

theorem transactWrite_wrote (h : s.Writes f k i) (hrest : s.AtRest)
    (hfit : (s.dinode i).Fits (s.ftable f).off src.length) :
    Wp (transactWrite f src) s (fun r t => r = src.length ∧ Wrote s f k i src t) fun _ => True := by
  have hbegun : s.begun.Writes f k i := h.withLog _
  unfold transactWrite
  refine (beginOp_begun hrest _).seq ?_
  rintro _ _ rfl
  refine (lockedWrite_spec hbegun (show (1 : Int) ≤ 1 by decide) src).bind ?_ fun _ _ => trivial
  rintro r t (⟨hno, -⟩ | ⟨-, hr, hw, hlog⟩)
  · exact absurd hfit hno
  refine (endOp_rest hlog hrest _).seq ?_
  rintro _ u ⟨-, hut⟩
  refine wp_pure.mpr ⟨hr, ?_⟩
  rw [hut]
  exact hw.withLog u.log

theorem filewrite_total (h : s.Writes f k i) (hrest : s.AtRest)
    (hoff : (s.ftable f).off ≤ (s.bytes i).length) (src : List UInt8) (hfree : s.missing i (s.ftable f).off
      (min src.length (MAXFILE * BSIZE - (s.ftable f).off)) ≤ s.free) : Wp (filewrite f src) s (fun r t =>
      (r = if (s.ftable f).off + src.length ≤ MAXFILE * BSIZE then (src.length : Int) else -1) ∧
      Wrote s f k i (src.take (storedLen (s.ftable f).off src.length)) t) fun _ => False := by
  unfold filewrite
  simp only [wp_bind, wp_file]
  rw [if_neg (by rw [h.writable]; decide), h.type]
  dsimp only
  rw [wp_bind]
  refine (filewriteFrom_total src.length src s (Nat.le_refl _) h hrest hoff
    (Finset.Subset.refl _) hfree).imp ?_
  rintro b t ⟨hb, hw⟩
  by_cases hfit : (s.ftable f).off + src.length ≤ MAXFILE * BSIZE
  · rw [if_pos (hb.mpr hfit), if_pos hfit]
    exact wp_pure.mpr ⟨rfl, hw⟩
  · rw [if_neg fun hc => hfit (hb.mp hc), if_neg hfit]
    exact wp_pure.mpr ⟨rfl, hw⟩

/-- Every write through a descriptor on a regular file, at an offset up to its size, in a
state without holes and with enough free blocks: if the bytes fit, `filewrite` returns
their number and leaves the file, its size and the offset as one `writei` of all of
them followed by `off += n` would; otherwise it returns -1, having stored and advanced
over the longest prefix of whole pieces that fits. -/
theorem filewrite_as_one (h : s.Writes f k i) (hrest : s.AtRest)
    (hoff : (s.ftable f).off ≤ (s.bytes i).length) (src : List UInt8) (hfree : s.missing i (s.ftable f).off
      (min src.length (MAXFILE * BSIZE - (s.ftable f).off)) ≤ s.free) :
    ∃ r t m, filewrite f src s = .ok (r, t) ∧
      ((s.ftable f).off + src.length ≤ MAXFILE * BSIZE → r = src.length ∧ m = src.length) ∧
      (MAXFILE * BSIZE < (s.ftable f).off + src.length → r = -1 ∧ (∃ c, m = c * filewriteMax) ∧
        (s.ftable f).off + m ≤ MAXFILE * BSIZE ∧ MAXFILE * BSIZE < (s.ftable f).off + m + filewriteMax) ∧
      t.bytes i = (s.bytes i).take (s.ftable f).off ++ src.take m ++
        (s.bytes i).drop ((s.ftable f).off + (src.take m).length) ∧
      t.ftable = upd s.ftable f { s.ftable f with off := (s.ftable f).off + (src.take m).length } ∧
      (∀ j < s.sb.ninodes, j ≠ i →
        t.dinode j = s.dinode j ∧ ((s.dinode j).type ≠ 0 → t.bytes j = s.bytes j)) ∧
      ∀ r' u, transactWrite f src s = .ok (r', u) →
        (s.ftable f).off + src.length ≤ MAXFILE * BSIZE →
        r' = r ∧ u.bytes i = t.bytes i ∧ u.ftable = t.ftable := by
  have htotal := filewrite_total h hrest hoff src hfree
  cases hrun : filewrite f src s with
  | error e => exact (wp_error htotal hrun).elim
  | ok p =>
    obtain ⟨r, t⟩ := p
    obtain ⟨hr, hw⟩ := wp_ok htotal hrun
    refine ⟨r, t, storedLen (s.ftable f).off src.length, rfl, fun hfit => ?_, fun hfar => ?_,
      hw.bytes, hw.ftable, hw.others, fun r' u hu hfit => ?_⟩
    · rw [if_pos hfit] at hr
      exact ⟨hr, if_pos hfit⟩
    · have hmax := Nat.div_add_mod (MAXFILE * BSIZE - (s.ftable f).off) filewriteMax
      have hmod := Nat.mod_lt (MAXFILE * BSIZE - (s.ftable f).off) (show 0 < filewriteMax by decide)
      have hsize : (s.bytes i).length ≤ MAXFILE * BSIZE := by
        rw [Fs.length_bytes]
        exact h.loaded_locked.noHoles.1
      rw [if_neg (by omega)] at hr
      have hlen : storedLen (s.ftable f).off src.length =
          (MAXFILE * BSIZE - (s.ftable f).off) / filewriteMax * filewriteMax := if_neg (by omega)
      rw [Nat.mul_comm] at hmax
      exact ⟨hr, ⟨_, hlen⟩, by omega, by omega⟩
    · have hall : storedLen (s.ftable f).off src.length = src.length := if_pos hfit
      rw [hall, List.take_length] at hw
      obtain ⟨hr', hw'⟩ := wp_ok (transactWrite_wrote h hrest
        ⟨by rw [← Fs.length_bytes]; exact hoff, hfit⟩) hu
      rw [if_pos hfit] at hr
      exact ⟨hr'.trans hr.symm, hw'.bytes.trans hw.bytes.symm, hw'.ftable.trans hw.ftable.symm⟩

end Xv6
