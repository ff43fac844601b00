import Xv6.Fs.OpRoom
import Xv6.Fs.Pipe
import Xv6.Fs.Transact

/-!
# Operations stay within their reservation

`begin_op` admits an operation if the log has room for `MAXOPBLOCKS` more blocks.
The account of a transaction starts with that many, and no call runs out of them.
-/

namespace Xv6

open Hoare Table

variable {N c : Nat} {B : Finset Nat} {g : View} {s t : Fs} {k : Fin NINODE} {i : Nat}

/-- The blocks listed when `body` is done are within the reservation, and `log_write`
does not find the log full. -/
def Within {α : Type} (body : Kern α) (s : Fs) : Prop :=
  Wp (do beginOp; body) s (fun _ t => t.log.lh.n ≤ MAXOPBLOCKS) Stop.notTooBig

/-! ## Counting -/

theorem begun_room (h : s.AtRest) (x : Nat) : s.begun.log.Room (MAXOPBLOCKS + 1) {x} 9 := by
  obtain ⟨-, hn⟩ := h.idle.idle rfl
  have hsize := h.size
  have hcard : (({x} : Finset Nat) \ s.begun.log.lh.listed).card ≤ 1 :=
    (Finset.card_le_card Finset.sdiff_subset).trans (Finset.card_singleton x).le
  have hn' : s.begun.log.lh.n = 0 := hn
  refine ⟨by decide, ?_, ?_⟩
  · change MAXOPBLOCKS + 1 < s.log.size
    simp only [MAXOPBLOCKS, LOGSIZE] at hsize ⊢
    omega
  · simp only [MAXOPBLOCKS]
    omega

theorem Log.Room.le_reserved {lg : Log} (h : lg.Room (MAXOPBLOCKS + 1) B c) : lg.lh.n ≤ MAXOPBLOCKS := by
  have := h.lt
  omega

theorem mapCost_one {sb : Superblock} (h : sb.size ≤ BPB) : MapCost {logKey sb.bmapstart} 0 sb := by
  intro b hb
  refine .inl (Finset.mem_singleton.mpr ?_)
  unfold Superblock.bblock
  rw [Nat.div_eq_of_lt (Nat.lt_of_lt_of_le hb h), Nat.zero_add]

/-- A state between two calls, with a log and a free map as `mkfs` makes them. -/
structure Fs.Standard (s : Fs) : Prop where
  fine : s.Fine
  log : LOGSIZE ≤ s.log.size
  map : s.sb.size ≤ BPB

theorem Fs.Standard.atRest (h : s.Standard) : s.AtRest :=
  ⟨h.fine.sound.rest.op ▸ h.fine.sound.inv.log, h.log⟩

theorem Fs.Standard.within (h : s.Standard) {α : Type} {body : Kern α}
    (hbody : ∀ t, Inv { s.view with op := true } t →
      t.log.Room (MAXOPBLOCKS + 1) {logKey s.sb.bmapstart} 9 →
      Wp body t (fun _ u => u.log.Room (MAXOPBLOCKS + 1) {logKey s.sb.bmapstart} 0) Stop.notTooBig) :
    Within body s := by
  refine ((beginOp_begun h.atRest Stop.notTooBig).also
    (beginOp_spec h.fine.sound.inv h.fine.sound.rest.op (fun _ => True))).seq ?_
  rintro _ t ⟨rfl, ht, -⟩
  exact (hbody _ ht (begun_room h.atRest _)).imp fun _ _ hu => hu.le_reserved

theorem makeBody_within (h : s.Standard) (path : Option (List UInt8)) {type : Int16} (htype : type ≠ 0)
    (major minor : Int16) : Within (makeBody path type major minor) s := by
  refine h.within fun t ht hroom => ?_
  have hB : MapCost {logKey s.sb.bmapstart} 0 s.sb := mapCost_one h.map
  unfold makeBody
  cases path with
  | none =>
    simp only [Option.elim, pure_bind]
    exact wp_pure.mpr (hroom.mono (by omega))
  | some path =>
    refine ((create_room (c := 1) ht h.fine.idle.inCall h.fine.settled path type major minor hB
      hroom).also (create_spec ht h.fine.idle.inCall path htype major minor)).seq ?_
    rintro (_ | k) u ⟨hr, hu⟩
    · exact wp_pure.mpr (hr.mono (by omega))
    · obtain ⟨node, i, hu, -⟩ := hu
      dsimp only
      exact (release_room (c := 0) hu (Finset.mem_singleton_self _) (.inl List.mem_cons_self) hB hr).seq
        (fun _ v hv => wp_pure.mpr hv)

theorem openInode_room (h : Inv g s) (hin : g.InCall) (hset : g.Settled) (path : List UInt8)
    (omode : Nat) (hB : MapCost B 0 g.sb) (hroom : s.log.Room N B (c + 8)) :
    Wp (openInode path omode) s (fun _ t => t.log.Room N B c) Stop.notTooBig := by
  unfold openInode
  refine wp_ite (fun _ => create_room h hin hset path T_FILE 0 0 hB hroom) fun _ => ?_
  refine ((namei_calm h hin.toRunning hin.op hin.locks hset path).also
    (namei_spec h hin.toRunning hin.op hin.locks path)).seq ?_
  rintro (_ | ip) t ⟨hlog, ht⟩
  · exact wp_pure.mpr (hlog ▸ hroom.mono (by omega))
  obtain ⟨node, i, ht, -, -⟩ := ht
  dsimp only at ht ⊢
  rw [← hlog] at hroom
  refine ((ilock_calm ip).also (ilock_spec ht (.inl List.mem_cons_self) (by simp [hin.locks]))).bind ?_
    fun _ he => he
  rintro _ u ⟨hlog, hu, -⟩
  dsimp only at hu
  rw [hin.locks, insert_empty_eq] at hu
  rw [← hlog] at hroom
  simp only [wp_bind, wp_inode]
  refine wp_ite (fun _ => ?_) fun _ => wp_pure.mpr (hroom.mono (by omega))
  exact (release_room (c := c + 7) hu (Finset.mem_singleton_self _) (.inl List.mem_cons_self) hB hroom).seq
    (fun _ v hv => wp_pure.mpr (hv.mono (by omega)))

theorem openBody_within (h : s.Standard) (path : List UInt8) (omode : Nat) :
    Within (openBody path omode) s := by
  refine h.within fun t ht hroom => ?_
  have hB : MapCost {logKey s.sb.bmapstart} 0 s.sb := mapCost_one h.map
  have hidle := h.fine.idle
  unfold openBody
  refine ((openInode_room (c := 1) ht hidle.inCall h.fine.settled path omode hB hroom).also
    (openInode_spec ht hidle.inCall path omode)).seq ?_
  rintro (_ | k) u ⟨hr, hu⟩
  · exact wp_pure.mpr (hr.mono (by omega))
  obtain ⟨node, i, hu, -⟩ := hu
  dsimp only at hu ⊢
  have hput : ∀ {v : Fs} {g' : View}, Inv g' v → g'.sb = s.sb → k ∈ g'.locks → (k, i) ∈ g'.refs →
      v.log.Room (MAXOPBLOCKS + 1) {logKey s.sb.bmapstart} 1 →
      Wp (do iunlockput k; return none) v
        (fun (_ : Option (Fin NOFILE × Fin NFILE × Fin NINODE)) w =>
          w.log.Room (MAXOPBLOCKS + 1) {logKey s.sb.bmapstart} 0) Stop.notTooBig :=
    fun hv hsb hk href hr => (release_room (c := 0) hv hk (.inl href) (hsb ▸ hB) hr).seq
      (fun _ w hw => wp_pure.mpr hw)
  have hfa : Wp filealloc u (fun _ v => v.log = u.log) Stop.notTooBig := wp_filealloc rfl fun _ _ => rfl
  refine (hfa.also (filealloc_spec hu hidle.owner hidle.closed (fun _ => True))).seq ?_
  rintro (_ | f) v ⟨hlog, hv⟩
  · rw [FileallocPost] at hv
    rw [hv]
    exact hput hu rfl (Finset.mem_singleton_self _) List.mem_cons_self hr
  obtain ⟨h0, hv⟩ := hv
  dsimp only at h0 hv ⊢
  rw [← hlog] at hr
  have hfd : Wp (fdalloc f) v (fun _ w => w.log = v.log) Stop.notTooBig := wp_fdalloc rfl fun _ _ => rfl
  refine (hfd.also (fdalloc_spec hv rfl f (fun _ => True))).seq ?_
  rintro (_ | fd) w ⟨hlog, hw⟩
  · rw [FdallocPost] at hw
    rw [hw]
    have hf : v.ftable f = { s.user.ftable f with ref := 1 } := by
      rw [hv.ftable_eq]
      exact upd_same _ _ _
    have hone : (v.ftable f).ref = 1 := by rw [hf]
    have hty : (v.ftable f).type ≠ .inode := by
      rw [hf]
      exact hidle.closed f h0
    have hcl : Wp (fileclose f) v (fun _ x => x.log = v.log) Stop.notTooBig :=
      (wp_fileclose_last hone hty).mpr rfl
    refine (hcl.also (fileclose_fresh hv rfl (hv.ftable_eq ▸ hone) (hv.ftable_eq ▸ hty)
      (fun _ => True))).seq ?_
    rintro _ x ⟨hlog, hx⟩
    exact hput hx rfl (Finset.mem_singleton_self _) List.mem_cons_self (hlog ▸ hr)
  · dsimp only
    refine (iunlock_calm k).bind (fun _ x hx => wp_pure.mpr ?_) fun _ he => he
    rw [hx.log, hlog]
    exact hr.mono (by omega)

theorem chdirBody_within (h : s.Standard) (path : Option (List UInt8)) : Within (chdirBody path) s := by
  refine h.within fun t ht hroom => ?_
  have hB : MapCost {logKey s.sb.bmapstart} 0 s.sb := mapCost_one h.map
  have hidle := h.fine.idle
  have hin := hidle.inCall
  unfold chdirBody
  cases path with
  | none =>
    simp only [Option.elim, pure_bind]
    exact wp_pure.mpr (hroom.mono (by omega))
  | some path =>
    refine ((namei_calm ht hin.toRunning rfl hidle.locks h.fine.settled path).also
      (namei_spec ht hin.toRunning rfl hidle.locks path)).seq ?_
    rintro (_ | k) u ⟨hlog, hu⟩
    · exact wp_pure.mpr (hlog ▸ hroom.mono (by omega))
    obtain ⟨node, i, hu, -⟩ := hu
    dsimp only at hu ⊢
    rw [← hlog] at hroom
    refine ((ilock_calm k).also (ilock_spec hu (.inl List.mem_cons_self)
      (by simp [hidle.locks]))).seq ?_
    rintro _ v ⟨hlog, hv, -⟩
    dsimp only at hv
    rw [hidle.locks, insert_empty_eq] at hv
    rw [← hlog] at hroom
    have hk := Finset.mem_singleton_self k
    simp only [wp_bind, wp_inode]
    refine wp_ite (fun _ => ?_) fun _ => ?_
    · exact (release_room (c := 8) hv hk (.inl List.mem_cons_self) hB hroom).bind
        (fun _ w hw => wp_pure.mpr (hw.mono (by omega))) fun _ he => he
    · refine ((iunlock_calm k).also (iunlock_spec hv hk (fun _ => True))).bind ?_ fun _ he => he
      rintro _ w ⟨hlog, hw, -⟩
      simp only [wp_bind, wp_myproc]
      have hcwd : (w.proc w.cur).cwd = (s.user.proc s.cur).cwd := by rw [hw.proc_eq, hw.cur]; rfl
      rw [hcwd]
      refine (drop_room (c := 8) (hw.kept (.inr ⟨hidle.running.holds_cwd, rfl⟩)) (hw.sb.symm ▸ hB)
        (hlog ▸ hroom)).imp fun _ x hx => wp_pure.mpr (hx.mono (by omega))

theorem linkBadBody_room (h : Inv g s) (hop : g.op = true) (hk : (k, i) ∈ g.refs) (hlk : k ∉ g.locks)
    (hB : MapCost B 0 g.sb) (hi : logKey (g.sb.iblock i) ∈ B) (hroom : s.log.Room N B c) :
    Wp (linkBadBody k) s (fun _ t => t.log.Room N B c) Stop.notTooBig := by
  unfold linkBadBody
  refine ((ilock_calm k).also (ilock_spec h (.inl hk) hlk)).bind ?_ fun _ he => he
  rintro _ t ⟨hlog, ht, -⟩
  rw [← hlog] at hroom
  have hk' : k ∈ insert k g.locks := Finset.mem_insert_self _ _
  simp only [wp_bind, wp_setDin]
  refine ((store_room (f := fun d => { d with nlink := d.nlink - 1 }) ht (.inl hk) hi hroom).also
    (nlink_spec ht hop hk' (.inl hk) (· - 1))).imp ?_
  rintro _ u ⟨hr, hu⟩
  exact (iunlockput_room hu hk' (.inl hk) hB hi hr).imp fun _ v hv => wp_pure.mpr hv

theorem linkBody_within (h : s.Standard) (old new : List UInt8) : Within (linkBody old new) s := by
  refine h.within fun t ht hroom => ?_
  have hB : MapCost {logKey s.sb.bmapstart} 0 s.sb := mapCost_one h.map
  have hidle := h.fine.idle
  have hin := hidle.inCall
  have hset := h.fine.settled
  unfold linkBody
  refine ((namei_calm ht hin.toRunning rfl hidle.locks hset old).also
    (namei_spec ht hin.toRunning rfl hidle.locks old)).seq ?_
  rintro (_ | ip) u ⟨hlog, hu⟩
  · exact wp_pure.mpr (hlog ▸ hroom.mono (by omega))
  obtain ⟨node, i, hu, -, hsame⟩ := hu
  obtain ⟨rfl, -⟩ := hsame hset
  dsimp only at hu ⊢
  rw [← hlog] at hroom
  rw [hidle.refs] at hu
  refine ((ilock_calm ip).also (ilock_spec hu (.inl List.mem_cons_self)
    (by simp [hidle.locks]))).seq ?_
  rintro _ v ⟨hlog, hv, -⟩
  dsimp only at hv
  rw [hidle.locks, insert_empty_eq] at hv
  rw [← hlog] at hroom
  have hk := Finset.mem_singleton_self ip
  simp only [wp_bind, wp_inode]
  refine wp_ite (fun _ => ?_) fun _ => ?_
  · exact (release_room (c := 8) hv hk (.inl List.mem_cons_self) hB hroom).seq
      (fun _ w hw => wp_pure.mpr (hw.mono (by omega)))
  -- The blocks of the inode and of the free map are accounted for from now on.
  obtain ⟨B, hBdef⟩ : ∃ B, B = insert (logKey (s.sb.iblock i)) ({logKey s.sb.bmapstart} : Finset Nat) :=
    ⟨_, rfl⟩
  have hend : ∀ {c : Nat} {w : Fs}, w.log.Room (MAXOPBLOCKS + 1) B c →
      w.log.Room (MAXOPBLOCKS + 1) {logKey s.sb.bmapstart} 0 := fun hw =>
    (hw.subset (hBdef ▸ Finset.subset_insert _ _)).mono (Nat.zero_le _)
  have hr : v.log.Room (MAXOPBLOCKS + 1) B 8 := hBdef ▸ hroom.insert _
  have hB' : MapCost B 0 s.sb := hBdef ▸ hB.insert _
  have hki : logKey (s.sb.iblock i) ∈ B := hBdef ▸ Finset.mem_insert_self _ _
  simp only [wp_bind, wp_setDin]
  refine ((store_room (f := fun d => { d with nlink := d.nlink + 1 }) hv (.inl List.mem_cons_self) hki
    hr).also (nlink_spec hv rfl hk (.inl List.mem_cons_self) (· + 1))).imp ?_
  rintro _ w ⟨hr, hw⟩
  refine ((iunlock_calm ip).also (iunlock_spec hw hk (fun _ => True))).imp ?_
  rintro _ x ⟨hlog, hx, -⟩
  dsimp only at hx
  rw [Finset.erase_singleton, ← hidle.locks] at hx
  replace hx : Inv { s.view with node := s.view.counted i, refs := [(ip, i)], op := true } x := hx
  rw [← hlog] at hr
  have hcount := View.Settled.counted (g := s.view) (k := ip) (i := i) hset hidle.refs true
  have hrun : View.Running { s.view with node := s.view.counted i, refs := [(ip, i)], op := true } :=
    ⟨hidle.owner, hidle.live, hidle.closed⟩
  refine ((nameiparent_calm hx hrun rfl hidle.locks hcount new).also
    (nameiparent_spec hx hrun rfl hidle.locks new)).imp ?_
  rintro (_ | ⟨dp, name⟩) y ⟨hlog, hy⟩
  · obtain ⟨node₂, hy, -⟩ := hy
    exact (linkBadBody_room hy rfl List.mem_cons_self (by simp [hidle.locks]) hB' hki
      (hlog ▸ hr)).imp fun _ z hz => hend hz
  obtain ⟨node₂, d, hy, -, -, hdir, -⟩ := hy
  dsimp only at hy ⊢
  rw [← hlog] at hr
  have hrefd : (dp, d) ∈ [(dp, d), (ip, i)] := List.mem_cons_self
  have hrefi : (ip, i) ∈ [(dp, d), (ip, i)] := List.mem_cons_of_mem _ List.mem_cons_self
  have hdp := Finset.mem_singleton_self dp
  rw [wp_bind]
  refine ((ilock_calm dp).also (ilock_spec hy (.inl hrefd) (by simp [hidle.locks]))).imp ?_
  rintro _ z ⟨hlog, hz, -⟩
  dsimp only at hz
  rw [hidle.locks, insert_empty_eq] at hz
  rw [← hlog] at hr
  simp only [wp_bind, wp_inode]
  rw [(hz.cache.slot dp (hz.ref_pos (.inl hrefd))).1, (hz.cache.slot ip (hz.ref_pos (.inl hrefi))).1,
    if_neg (not_not.mpr rfl)]
  simp only [wp_bind, wp_inode]
  rw [hz.inum_eq (.inl hrefi)]
  have hr := hr.insert (c := 7) (logKey (s.sb.iblock d))
  have hB'' := hB'.insert (logKey (s.sb.iblock d))
  have hkd : logKey (s.sb.iblock d) ∈ insert (logKey (s.sb.iblock d)) B := Finset.mem_insert_self _ _
  refine ((dirlink_room (c := 5) hz rfl hdp (.inl hrefd) hdir hB'' hkd name i hr).also
    (dirlink_types hz rfl hdp (.inl hrefd) hdir name (hy.at_lt (.inl hrefi)).2)).imp ?_
  rintro r a ⟨hr, node₃, ha, -⟩
  dsimp only at ha
  have hput := (iunlockput_room ha hdp (.inl hrefd) hB'' hkd hr).also
    (iunlockput_spec ha rfl (List.Perm.refl _) hdp)
  have hki' := Finset.mem_insert_of_mem (a := logKey (s.sb.iblock i)) (b := logKey (s.sb.iblock d)) hki
  refine wp_ite (fun _ => ?_) fun _ => ?_
  · rw [wp_bind]
    refine hput.imp ?_
    rintro _ b ⟨hr, hb⟩
    exact (linkBadBody_room hb rfl List.mem_cons_self (by simp) hB'' hki' hr).imp
      fun _ e he => hend (he.subset (Finset.subset_insert _ _))
  · simp only [wp_bind, wp_pure]
    refine hput.imp ?_
    rintro _ b ⟨hr, hb⟩
    exact (iput_room (hb.kept (.inl List.mem_cons_self)) (hb.sb.symm ▸ hB'') (hb.sb.symm ▸ hki') hr).imp
      fun _ e he => hend (he.subset (Finset.subset_insert _ _))

theorem clear_room {dp : Fin NINODE} {d e : Nat} (h : Inv g s) (hop : g.op = true) (hdp : dp ∈ g.locks)
    (hat : g.At dp d) (hdir : (g.node d).type = T_DIR) (he : e < (g.node d).size / DESIZE)
    (isDir : Prop) [Decidable isDir] (hB : MapCost B 0 g.sb) (hd : logKey (g.sb.iblock d) ∈ B)
    (hroom : s.log.Room N B (c + 2)) {m : Kern Int} {Q : Int → Fs → Prop}
    (hm : ∀ t node, Inv { g with node := node } t → t.log.Room N B c → Wp m t Q Stop.notTooBig) :
    Wp (clearEntry dp (DESIZE * e) isDir m) s Q Stop.notTooBig := by
  have hdev : (g.node d).type ≠ T_DEV := by rw [hdir]; decide
  have hlen : (List.replicate DESIZE (0 : UInt8)).length = DESIZE := List.length_replicate ..
  have hwrite := writei_room (N := N) (c := c) (β := 0) (ι := 0) (h.loaded hdp hat hdev) (h.inOp hop)
    (DESIZE * e) (List.replicate DESIZE 0) (h.sb.symm ▸ hB) (.inl (h.sb.symm ▸ hd))
    (by rw [hlen, blocksOf_dirent]; exact .of_room hroom)
  unfold clearEntry
  refine (hwrite.also (writei_spec h hop hdp hat hdev (List.replicate DESIZE 0) (DESIZE * e) fun _ _ =>
    (h.disk.entries d (h.at_lt hat).2 hdir).clear he)).seq ?_
  have hsize := Node.lt_iff.mp he
  have hmax := h.size_le hdp hat hdev
  rw [hlen]
  rintro r t ⟨hr, ⟨hfit, -⟩ | ⟨-, rfl, ht, -⟩⟩
  · exact absurd ⟨by omega, by omega⟩ hfit
  refine wp_ite (fun hc => absurd rfl hc) fun _ => ?_
  rw [wp_bind]
  refine wp_ite (fun _ => ?_) fun _ => wp_pure.mpr (hm t _ ht hr)
  simp only [wp_bind, wp_setDin]
  refine ((store_room (f := fun d => { d with nlink := d.nlink - 1 }) ht hat hd hr).also
    (nlink_spec ht hop hdp hat (· - 1))).imp ?_
  rintro _ u ⟨hr, hu⟩
  exact hm u _ hu hr

theorem unlinkBody_within (h : s.Standard) (path : List UInt8) : Within (unlinkBody path) s := by
  refine h.within fun t ht hroom => ?_
  have hB : MapCost {logKey s.sb.bmapstart} 0 s.sb := mapCost_one h.map
  have hidle := h.fine.idle
  have hin := hidle.inCall
  unfold unlinkBody
  refine ((nameiparent_calm ht hin.toRunning rfl hidle.locks h.fine.settled path).also
    (nameiparent_spec ht hin.toRunning rfl hidle.locks path)).seq ?_
  rintro (_ | ⟨dp, x⟩) u ⟨hlog, hu⟩
  · exact wp_pure.mpr (hlog ▸ hroom.mono (by omega))
  obtain ⟨node, d, hu, -, -, hdir, -⟩ := hu
  dsimp only at hu ⊢
  rw [← hlog] at hroom
  rw [hidle.refs] at hu
  refine ((ilock_calm dp).also (ilock_spec hu (.inl List.mem_cons_self)
    (by simp [hidle.locks]))).seq ?_
  rintro _ v ⟨hlog, hv, -⟩
  dsimp only at hv
  rw [hidle.locks, insert_empty_eq] at hv
  rw [← hlog] at hroom
  have hdp := Finset.mem_singleton_self dp
  have hbad : Wp (unlinkBadBody dp) v (fun _ w =>
      w.log.Room (MAXOPBLOCKS + 1) {logKey s.sb.bmapstart} 0) Stop.notTooBig :=
    (release_room (c := 8) hv hdp (.inl List.mem_cons_self) hB hroom).seq
      (fun _ w hw => wp_pure.mpr (hw.mono (by omega)))
  refine wp_ite (fun _ => hbad) fun _ => ?_
  refine ((dirlookup_calm hv hdp (.inl List.mem_cons_self) hdir x).also
    (dirlookup_spec hv hdp (.inl List.mem_cons_self) hdir x)).seq ?_
  rintro (_ | ⟨ip, off⟩) w ⟨hlog, hw⟩
  · obtain ⟨rfl, -⟩ := hw
    exact hbad
  obtain ⟨e, hfind, rfl, hw⟩ := hw
  dsimp only at hfind hw ⊢
  rw [← hlog] at hroom
  obtain ⟨i, hi⟩ : ∃ i, i = ((node d).ent e).inum := ⟨_, rfl⟩
  rw [← hi] at hw
  rw [wp_bind]
  by_cases hips : ip = dp
  · exact (ilock_asleep hw (by rw [hips]; exact hdp)).mono (fun _ _ hf => hf)
      fun y hy => by rw [hy]; intro hc; cases hc
  refine ((ilock_calm ip).also (ilock_spec hw (.inl List.mem_cons_self) (by simpa using hips))).imp ?_
  rintro _ y ⟨hlog, hy, -⟩
  dsimp only at hy
  rw [← hlog] at hroom
  have hip : ip ∈ ({ip, dp} : Finset (Fin NINODE)) := Finset.mem_insert_self _ _
  have hdp' : dp ∈ ({ip, dp} : Finset (Fin NINODE)) :=
    Finset.mem_insert_of_mem (Finset.mem_singleton_self _)
  have hrefi : (ip, i) ∈ [(ip, i), (dp, d)] := List.mem_cons_self
  have hrefd : (dp, d) ∈ [(ip, i), (dp, d)] := List.mem_cons_of_mem _ List.mem_cons_self
  have hdtype : (y.icache ip).din.type = (node i).type := by
    rw [hy.din_type hip, hy.inum_eq (.inl hrefi)]
  simp only [wp_bind, wp_inode]
  refine wp_ite (fun _ => wp_panic.mpr (by intro h; cases h)) fun _ => ?_
  -- The blocks of both inodes are accounted for from now on.
  obtain ⟨B, hBdef⟩ : ∃ B, B = insert (logKey (s.sb.iblock i))
    (insert (logKey (s.sb.iblock d)) ({logKey s.sb.bmapstart} : Finset Nat)) := ⟨_, rfl⟩
  have hr : y.log.Room (MAXOPBLOCKS + 1) B 7 := hBdef ▸ (hroom.insert (c := 8) _).insert _
  have hB' : MapCost B 0 s.sb := hBdef ▸ (hB.insert _).insert _
  have hki : logKey (s.sb.iblock i) ∈ B := hBdef ▸ Finset.mem_insert_self _ _
  have hkd : logKey (s.sb.iblock d) ∈ B :=
    hBdef ▸ Finset.mem_insert_of_mem (Finset.mem_insert_self _ _)
  have hend : ∀ {c : Nat} {w : Fs}, w.log.Room (MAXOPBLOCKS + 1) B c →
      w.log.Room (MAXOPBLOCKS + 1) {logKey s.sb.bmapstart} 0 := fun hw =>
    (hw.subset (hBdef ▸ (Finset.subset_insert _ _).trans (Finset.subset_insert _ _))).mono
      (Nat.zero_le _)
  have herase : ({ip, dp} : Finset (Fin NINODE)).erase ip = {dp} :=
    Finset.erase_insert (by simpa using hips)
  have herase' : ({ip, dp} : Finset (Fin NINODE)).erase dp = {ip} := by
    rw [Finset.erase_insert_of_ne hips, Finset.erase_singleton, insert_empty_eq]
  -- A directory that is not empty is given back.
  have hfull : Wp (do iunlockput ip; unlinkBadBody dp) y (fun _ w =>
      w.log.Room (MAXOPBLOCKS + 1) {logKey s.sb.bmapstart} 0) Stop.notTooBig := by
    refine ((iunlockput_room hy hip (.inl hrefi) hB' hki hr).also
      (iunlockput_spec hy rfl (List.Perm.refl _) hip)).seq ?_
    rintro _ z ⟨hr, hz⟩
    dsimp only at hz
    rw [herase] at hz
    exact (iunlockput_room hz hdp (.inl List.mem_cons_self) hB' hkd hr).seq
      (fun _ a ha => wp_pure.mpr (hend ha))
  have hgone : Wp (clearEntry dp (DESIZE * e) ((y.icache ip).din.type = T_DIR) (do
      iunlockput dp
      setDin ip fun d => { d with nlink := d.nlink - 1 }
      iupdate ip
      iunlockput ip
      return 0)) y (fun _ w =>
      w.log.Room (MAXOPBLOCKS + 1) {logKey s.sb.bmapstart} 0) Stop.notTooBig := by
    refine clear_room (c := 5) hy rfl hdp' (.inl hrefd) hdir (Node.find_some hfind).1 _ hB' hkd hr ?_
    intro z node' hz hr
    dsimp only at hz
    simp only [wp_bind, wp_setDin, wp_pure]
    refine ((iunlockput_room hz hdp' (.inl hrefd) hB' hkd hr).also
      (iunlockput_spec hz rfl (List.Perm.swap _ _ _) hdp')).imp ?_
    rintro _ a ⟨hr, ha⟩
    dsimp only at ha
    rw [herase'] at ha
    have hipa := Finset.mem_singleton_self ip
    refine ((store_room (f := fun d => { d with nlink := d.nlink - 1 }) ha (.inl List.mem_cons_self) hki
      hr).also (nlink_spec ha rfl hipa (.inl List.mem_cons_self) (· - 1))).imp ?_
    rintro _ b ⟨hr, hb⟩
    exact (iunlockput_room hb hipa (.inl List.mem_cons_self) hB' hki hr).imp fun _ f hf => hend hf
  by_cases hd : (y.icache ip).din.type = T_DIR
  · rw [if_pos hd, wp_bind]
    refine (isdirempty_spec hy hip (.inl hrefi) (hdtype.symm.trans hd)).mono ?_ ?_
    · rintro b z ⟨hzy, -⟩
      rw [wp_bind, wp_pure, hzy]
      exact wp_ite (fun _ => hfull) fun _ => hgone
    · rintro f ⟨rfl, -⟩ hc
      cases hc
  · rw [if_neg hd, wp_bind, wp_pure]
    exact wp_ite (fun hc => by cases hc) fun _ => hgone

theorem close_within (h : s.Standard) (fd : Fin NOFILE) {f : Fin NFILE} (href : (s.ftable f).ref = 1)
    (hty : (s.ftable f).type = .inode) : Within (iput (s.ftable f).ip) (s.closing fd f) := by
  have hat : View.At s.view (s.ftable f).ip (s.view.inum (s.ftable f).ip) :=
    .inr ⟨holds_file h.fine.idle.owner (by rw [show s.view.user.ftable f = s.ftable f from rfl, href]; decide)
      hty, rfl⟩
  have hkept := h.fine.sound.inv.kept hat
  have hrest : (s.closing fd f).AtRest := ⟨h.atRest.idle, h.atRest.size⟩
  refine (beginOp_begun hrest Stop.notTooBig).seq ?_
  rintro _ t rfl
  have hkept' : (s.closing fd f).begun.Kept (s.ftable f).ip (s.view.inum (s.ftable f).ip) :=
    ⟨hkept.geom, hkept.lt, hkept.inum, hkept.read, hkept.owned⟩
  exact (drop_room (c := 8) hkept' (mapCost_one h.map) (begun_room hrest _)).imp
    fun _ u hu => hu.le_reserved

theorem lockedWrite_within (h : s.Standard) {f : Fin NFILE} (href : (s.ftable f).ref ≠ 0)
    (hty : (s.ftable f).type = .inode) {src : List UInt8} (hlen : src.length ≤ filewriteMax) :
    Within (lockedWrite f src) s := by
  refine h.within fun t ht hroom => ?_
  have hB : MapCost {logKey s.sb.bmapstart} 0 s.sb := mapCost_one h.map
  have hidle := h.fine.idle
  obtain ⟨k, hk⟩ : ∃ k, k = (s.ftable f).ip := ⟨_, rfl⟩
  obtain ⟨i, hi⟩ : ∃ i, i = s.view.inum k := ⟨_, rfl⟩
  have hat : View.At { s.view with op := true } k i :=
    .inr ⟨hk ▸ holds_file hidle.owner href hty, hi.symm⟩
  unfold lockedWrite
  have hft : t.ftable f = s.ftable f := by
    rw [ht.ftable_eq]
    rfl
  simp only [wp_bind, wp_file, hft, ← hk]
  refine ((ilock_calm k).also (ilock_spec ht hat (by simp [hidle.locks]))).imp ?_
  rintro _ u ⟨hlog, hu, -⟩
  rw [← hlog] at hroom
  have hku : k ∈ insert k s.view.locks := Finset.mem_insert_self _ _
  have hend : ∀ r v, v.log.Room (MAXOPBLOCKS + 1) {logKey s.sb.bmapstart} 0 →
      Wp (do
        (if 0 < r then setFile f fun fl => { fl with off := (fl.off + r.toNat) % 2 ^ 32 }
        else return ())
        iunlock k
        return r) v (fun (_ : Int) w => w.log.Room (MAXOPBLOCKS + 1) {logKey s.sb.bmapstart} 0)
        Stop.notTooBig := by
    intro r v hv
    have hun : ∀ w : Fs, w.log = v.log → Wp (do iunlock k; return r) w
        (fun _ x => x.log.Room (MAXOPBLOCKS + 1) {logKey s.sb.bmapstart} 0) Stop.notTooBig :=
      fun w hw => (iunlock_calm k).bind
        (fun _ x hx => wp_pure.mpr (by rw [hx.log, hw]; exact hv)) fun _ he => he
    rw [wp_bind]
    refine wp_ite (fun _ => ?_) fun _ => wp_pure.mpr (hun v rfl)
    exact wp_setFile.mpr (hun _ rfl)
  have hwrite : Wp (writei k src (s.ftable f).off) u (fun _ v =>
      v.log.Room (MAXOPBLOCKS + 1) {logKey s.sb.bmapstart} 0) Stop.notTooBig := by
    by_cases hdev : (s.node i).type = T_DEV
    · -- The console logs nothing.
      have hd : (u.icache k).din.type = T_DEV := by
        rw [hu.din_type hku, hu.inum_eq hat]
        exact hdev
      unfold writei consolewrite
      simp only [wp_bind, wp_inode, hd, if_true]
      refine wp_ite (fun _ => wp_pure.mpr (hroom.mono (by omega))) fun _ => ?_
      refine (iunlock_calm k).bind (fun _ v hv => ?_) fun _ he => he
      refine (ilock_calm k).bind (fun _ w hw => wp_pure.mpr ?_) fun _ he => he
      rw [hw.log, hv.log]
      exact hroom.mono (by omega)
    · have hroom' := hroom.insert (c := 8) (logKey (s.sb.iblock i))
      have hspare : u.Spare (MAXOPBLOCKS + 1) (insert (logKey (s.sb.iblock i)) {logKey s.sb.bmapstart}) 0
          (0 + 0 + blocksOf (s.ftable f).off src.length * (1 + 0)) k := by
        refine .of_room (hroom'.mono ?_)
        have := blocksOf_piece (s.ftable f).off hlen
        omega
      refine (writei_room (c := 0) (β := 0) (ι := 0) (hu.loaded hku hat hdev) (hu.inOp rfl) _ src
        (hu.sb.symm ▸ hB.insert _) (.inl (hu.sb.symm ▸ Finset.mem_insert_self _ _)) hspare).imp
        fun _ v hv => hv.subset (Finset.subset_insert _ _)
  refine hwrite.imp fun r v hv => ?_
  have := hend r v hv
  simpa only [wp_bind] using this

/-! ## The theorem -/

/-- From `s`, the call is a transaction that starts in `s'`, and the transaction
stays within its reservation. -/
structure Reserved {α : Type} (call : Kern Int) (s : Fs) (body : Kern α) (rest : α → Kern Int)
    (s' : Fs) : Prop where
  eq : call s = transact body rest s'
  within : Within body s'

/-- Every operation logs at most `MAXOPBLOCKS` blocks. -/
theorem operations_within_reservation (h : s.Standard) : (∀ path omode,
      Reserved (sysOpen (some path) omode) s (openBody path omode) (openRest omode) s) ∧
    (∀ path, Reserved (sysMkdir path) s (makeBody path T_DIR 0 0) pure s) ∧ (∀ path major minor,
      Reserved (sysMknod path major minor) s (makeBody path T_DEV major minor) pure s) ∧
    (∀ old new, Reserved (sysLink (some old) (some new)) s (linkBody old new) pure s) ∧
    (∀ path, Reserved (sysUnlink (some path)) s (unlinkBody path) pure s) ∧
    (∀ path, Reserved (sysChdir path) s (chdirBody path) chdirRest s) ∧
    (∀ fd f, (s.proc s.cur).ofile fd = some f → (s.ftable f).ref = 1 → (s.ftable f).type = .inode →
      Reserved (sysClose (fd.val : Int)) s (iput (s.ftable f).ip) (fun _ => pure 0) (s.closing fd f)) ∧
    (∀ f src, (s.ftable f).ref ≠ 0 → (s.ftable f).type = .inode → src.length ≤ filewriteMax →
      Reserved (transactWrite f src) s (lockedWrite f src) pure s) := by
  refine ⟨fun path omode => ⟨?_, openBody_within h path omode⟩,
    fun path => ⟨?_, makeBody_within h path (by decide) 0 0⟩,
    fun path major minor => ⟨?_, makeBody_within h path (by decide) major minor⟩,
    fun old new => ⟨?_, linkBody_within h old new⟩, fun path => ⟨?_, unlinkBody_within h path⟩,
    fun path => ⟨?_, chdirBody_within h path⟩,
    fun fd f hfd href hty => ⟨sysClose_eq hfd href hty, close_within h fd href hty⟩,
    fun f src href hty hlen => ⟨rfl, lockedWrite_within h href hty hlen⟩⟩
  · rw [sysOpen_eq]
  · rw [sysMkdir, makeNode_eq]
  · rw [sysMknod, makeNode_eq]
  · rw [sysLink_eq]
  · rw [sysUnlink_eq]
  · rw [sysChdir_eq]

namespace Tiny

/-- Making a directory on the small disk. -/
theorem operations_within_reservation_mkdir : start.Standard ∧
    Reserved (sysMkdir (some x)) start (makeBody (some x) T_DIR 0 0) pure start := by
  have h : start.Standard := ⟨fine_of_linked start_sound (by decide +kernel), by decide, by decide⟩
  exact ⟨h, (operations_within_reservation h).2.1 (some x)⟩

end Tiny

end Xv6
