import Xv6.Fs.Calm
import Xv6.Fs.DirMap

/-!
# The free map after a call that failed

A call that makes, links or removes a name looks for the name first, and changes
the free map only after nothing can fail any more. `link` writes the inode before
that, and writes it again when it fails: both writes are to an inode block.
-/

namespace Xv6

open Hoare Table

variable {g : View} {s t u : Fs} {k : Fin NINODE} {i : Nat}

def SameBits (s t : Fs) : Prop := t.sb = s.sb ∧ ∀ b, t.sb.bit t.blk b = s.sb.bit s.blk b

theorem SameBits.trans (h : SameBits s t) (h' : SameBits t u) : SameBits s u :=
  ⟨h'.1.trans h.1, fun b => (h'.2 b).trans (h.2 b)⟩

theorem SameBits.of_blk (hsb : t.sb = s.sb) (hblk : t.blk = s.blk) : SameBits s t :=
  ⟨hsb, fun b => by rw [hsb, hblk]⟩

theorem OnlyCache.sameBits (h : OnlyCache s t) : SameBits s t := .of_blk h.sb h.blk

theorem Calm.step {α : Type} {m : Kern α} {Q : α → Fs → Prop} {E : Stop → Prop} (h : Calm m s)
    (hq : Wp m s Q E) : Wp m s (fun a t => SameBits s t ∧ Q a t) fun _ => True :=
  (h.and hq).mono (fun _ _ ht => ⟨ht.1.sameBits, ht.2⟩) fun _ _ => trivial

theorem beginOp_bits : Wp beginOp s (fun _ t => SameBits s t) fun _ => True := by
  unfold beginOp
  simp only [wp_bind, wp_get]
  refine wp_ite (fun _ => wp_throw.mpr trivial) fun _ => wp_ite (fun _ => wp_throw.mpr trivial)
    fun _ => wp_set.mpr (.of_blk rfl rfl)

theorem endOp_bits : Wp endOp s (fun _ t => SameBits s t) fun _ => True := by
  unfold endOp
  simp only [wp_bind, wp_get]
  exact wp_ite (fun _ => wp_panic.mpr trivial) fun _ => wp_ite (fun _ => wp_set.mpr (.of_blk rfl rfl))
    fun _ => wp_set.mpr (.of_blk rfl rfl)

theorem iupdate_bits (h : s.sb.Geom) (hi : (s.icache k).inum < s.sb.ninodes) :
    Wp (iupdate k) s (fun _ t => SameBits s t) fun _ => True := by
  unfold iupdate bput logWrite
  simp only [wp_bind, wp_get, wp_modify]
  refine wp_ite (fun _ => wp_panic.mpr trivial) fun _ => wp_ite (fun _ => wp_panic.mpr trivial)
    fun _ => wp_set.mpr ⟨rfl, fun b => ?_⟩
  change (upd s.blk _ _ (s.sb.bblock b)).bit _ = (s.blk (s.sb.bblock b)).bit _
  rw [upd_ne]
  exact (h.iblock_ne_bblock hi b).symm

variable {s₀ : Fs}

theorem fail_bits (h : SameBits s₀ s) :
    Wp (do endOp; return (-1 : Int)) s (fun r t => r = -1 → SameBits s₀ t) fun _ => True :=
  endOp_bits.bind (fun _ _ ht => wp_pure.mpr fun _ => h.trans ht) fun _ _ => trivial

theorem done_bits {α : Type} (m : Kern α) :
    Wp (do let _ ← m; return (0 : Int)) s (fun r t => r = -1 → SameBits s₀ t) fun _ => True :=
  (wp_any m).bind (fun _ _ _ => wp_pure.mpr fun hc => absurd hc (by decide)) fun _ _ => trivial

theorem put_bits (h : Inv { g with refs := [(k, i)], locks := {k}, op := true } s)
    (hset : g.Settled) (hrefs : g.refs = []) (hs : SameBits s₀ s) :
    Wp (do iunlockput k; endOp; return (-1 : Int)) s (fun r t => r = -1 → SameBits s₀ t)
      fun _ => True := by
  have hk := Finset.mem_singleton_self k
  have hput : Calm (iunlockput k) s := iunlockput_calm h (List.Perm.refl _) hk fun hty h0 =>
    View.Uses.mono (r := g.refs) (by simp [hrefs]) (hset i (h.lt_of_type hty) hty h0)
  exact (hput.mono (fun _ _ ht => ht.sameBits) fun _ _ => trivial).bind
    (fun _ _ ht => fail_bits (hs.trans ht)) fun _ _ => trivial

/-! ## The calls -/

theorem create_bits (h : Inv g s) (hin : g.InCall) (hset : g.Settled) (path : List UInt8)
    (type major minor : Int16) :
    Wp (create path type major minor) s (fun r t => r = none → SameBits s t) fun _ => True := by
  unfold create
  refine ((nameiparent_calm h hin.toRunning hin.op hin.locks hset path).step
    (nameiparent_spec h hin.toRunning hin.op hin.locks path)).bind ?_ fun _ _ => trivial
  rintro (_ | ⟨dp, x⟩) t ⟨hbt, ht⟩
  · exact wp_pure.mpr fun _ => hbt
  obtain ⟨node, d, ht, -, -, hdir, hsame⟩ := ht
  obtain rfl := hsame hset
  dsimp only
  rw [hin.refs] at ht
  refine ((ilock_calm dp).step (ilock_spec ht (.inl List.mem_cons_self) (by simp [hin.locks]))).bind ?_
    fun _ _ => trivial
  rintro _ u ⟨hbu, hu, hty⟩
  dsimp only at hu
  rw [hin.locks, insert_empty_eq] at hu
  have hdp := Finset.mem_singleton_self dp
  refine ((dirlookup_calm hu hdp (.inl List.mem_cons_self) hdir x).step
    (dirlookup_spec hu hdp (.inl List.mem_cons_self) hdir x)).bind ?_ fun _ _ => trivial
  rintro (_ | ⟨ip, off⟩) v ⟨hbv, hv⟩
  · exact (wp_any (createNew dp x type major minor)).bind
      (fun _ _ _ => wp_pure.mpr fun hc => by cases hc) fun _ _ => trivial
  obtain ⟨e, -, -, hv⟩ := hv
  dsimp only at hv ⊢
  obtain ⟨i, hi⟩ : ∃ i, i = ((g.node d).ent e).inum := ⟨_, rfl⟩
  rw [← hi] at hv
  have hkeep : (g.node d).nlink = 0 → View.Uses { g with refs := [(ip, i)] } d := fun h0 =>
    View.Uses.mono (r := g.refs) (by simp [hin.refs])
      (hset d (ht.at_lt (.inl List.mem_cons_self)).2 hty h0)
  refine ((iunlockput_calm hv (List.Perm.swap _ _ _) hdp fun _ => hkeep).step
    (iunlockput_spec hv hin.op (List.Perm.swap _ _ _) hdp)).bind ?_ fun _ _ => trivial
  rintro _ w ⟨hbw, hw⟩
  have hdrop : View.drop { g with refs := [(ip, i), (dp, d)], locks := {dp} } d [(ip, i)] = g.node :=
    View.drop_keep hkeep
  dsimp only at hw
  rw [Finset.erase_singleton, hdrop] at hw
  refine ((ilock_calm ip).step (ilock_spec hw (.inl List.mem_cons_self) (by simp))).bind ?_
    fun _ _ => trivial
  rintro _ y ⟨hby, hy, hity⟩
  dsimp only at hy
  rw [insert_empty_eq] at hy
  simp only [wp_bind, wp_inode]
  refine wp_ite (fun _ => wp_pure.mpr fun hc => by cases hc) fun _ => ?_
  have hput : Calm (iunlockput ip) y := iunlockput_calm hy (List.Perm.refl _)
    (Finset.mem_singleton_self _) fun _ h0 =>
      View.Uses.mono (r := g.refs) (by simp [hin.refs]) (hset i (h.lt_of_type hity) hity h0)
  refine (hput.mono (fun _ _ hz => hz.sameBits) fun _ _ => trivial).bind (fun _ z hbz => ?_)
    fun _ _ => trivial
  exact wp_pure.mpr fun _ => ((((hbt.trans hbu).trans hbv).trans hbw).trans hby).trans hbz

theorem makeNode_bits (h : Inv g s) (hidle : g.Idle) (hset : g.Settled) (path : Option (List UInt8))
    (type major minor : Int16) :
    Wp (makeNode path type major minor) s (fun r t => r = -1 → SameBits s t) fun _ => True := by
  unfold makeNode
  refine (beginOp_bits.and (beginOp_spec h hidle.op (fun _ => True))).bind ?_ fun _ _ => trivial
  rintro _ t ⟨hbt, ht, -⟩
  rw [wp_bind]
  cases path with
  | none => exact wp_pure.mpr (fail_bits hbt)
  | some path =>
    refine (create_bits ht hidle.inCall hset path type major minor).imp ?_
    rintro (_ | k) u hu
    · exact fail_bits (hbt.trans (hu rfl))
    · dsimp only
      refine (wp_any (iunlockput k)).bind (fun _ v _ => ?_) fun _ _ => trivial
      exact done_bits endOp

theorem sysChdir_bits (h : Inv g s) (hidle : g.Idle) (hset : g.Settled) (path : Option (List UInt8)) :
    Wp (sysChdir path) s (fun r t => r = -1 → SameBits s t) fun _ => True := by
  unfold sysChdir
  refine (beginOp_bits.and (beginOp_spec h hidle.op (fun _ => True))).bind ?_ fun _ _ => trivial
  rintro _ t ⟨hbt, ht, -⟩
  have hin := hidle.inCall
  rw [wp_bind]
  cases path with
  | none => exact wp_pure.mpr (fail_bits hbt)
  | some path =>
    refine ((namei_calm ht hin.toRunning rfl hidle.locks hset path).step
      (namei_spec ht hin.toRunning rfl hidle.locks path)).mono ?_ fun _ _ => trivial
    rintro (_ | k) u ⟨hbu, hu⟩
    · exact fail_bits (hbt.trans hbu)
    obtain ⟨node, i, hu, -, hsame⟩ := hu
    obtain ⟨rfl, -⟩ := hsame hset
    dsimp only at hu ⊢
    rw [hidle.refs] at hu
    refine ((ilock_calm k).step (ilock_spec hu (.inl List.mem_cons_self) (by simp [hidle.locks]))).bind
      ?_ fun _ _ => trivial
    rintro _ v ⟨hbv, hv, -⟩
    dsimp only at hv
    rw [hidle.locks, insert_empty_eq] at hv
    simp only [wp_bind, wp_inode]
    refine wp_ite (fun _ => ?_) fun _ => ?_
    · exact put_bits hv hset hidle.refs ((hbt.trans hbu).trans hbv)
    · refine (wp_any (iunlock k)).bind (fun _ w _ => ?_) fun _ _ => trivial
      simp only [wp_bind, wp_myproc]
      refine (wp_any _).imp fun _ x _ => (wp_any endOp).imp fun _ y _ => ?_
      simp only [wp_modify, wp_pure]
      exact fun hc => absurd hc (by decide)

theorem unlinkBad_bits (h : Inv { g with refs := [(k, i)], locks := {k}, op := true } s)
    (hset : g.Settled) (hrefs : g.refs = []) (hs : SameBits s₀ s) :
    Wp (unlinkBad k) s (fun r t => r = -1 → SameBits s₀ t) fun _ => True := by
  unfold unlinkBad
  exact put_bits h hset hrefs hs

theorem sysUnlink_bits (h : Inv g s) (hidle : g.Idle) (hset : g.Settled) (path : Option (List UInt8)) :
    Wp (sysUnlink path) s (fun r t => r = -1 → SameBits s t) fun _ => True := by
  unfold sysUnlink
  cases path with
  | none => exact wp_pure.mpr fun _ => .of_blk rfl rfl
  | some p =>
  dsimp only
  refine (beginOp_bits.and (beginOp_spec h hidle.op (fun _ => True))).bind ?_ fun _ _ => trivial
  rintro _ t ⟨hbt, ht, -⟩
  have hin := hidle.inCall
  refine ((nameiparent_calm ht hin.toRunning rfl hidle.locks hset p).step
    (nameiparent_spec ht hin.toRunning rfl hidle.locks p)).bind ?_ fun _ _ => trivial
  rintro (_ | ⟨dp, x⟩) u ⟨hbu, hu⟩
  · exact fail_bits (hbt.trans hbu)
  obtain ⟨node, d, hu, -, -, hdir, hsame⟩ := hu
  obtain rfl := hsame hset
  dsimp only at hu ⊢
  rw [hidle.refs] at hu
  refine ((ilock_calm dp).step (ilock_spec hu (.inl List.mem_cons_self) (by simp [hidle.locks]))).bind
    ?_ fun _ _ => trivial
  rintro _ v ⟨hbv, hv, hdty⟩
  dsimp only at hv
  rw [hidle.locks, insert_empty_eq] at hv
  have hdp := Finset.mem_singleton_self dp
  have hb := (hbt.trans hbu).trans hbv
  refine wp_ite (fun _ => unlinkBad_bits hv hset hidle.refs hb) fun _ => ?_
  refine ((dirlookup_calm hv hdp (.inl List.mem_cons_self) hdir x).step
    (dirlookup_spec hv hdp (.inl List.mem_cons_self) hdir x)).bind ?_ fun _ _ => trivial
  rintro (_ | ⟨ip, off⟩) w ⟨hbw, hw⟩
  · obtain ⟨rfl, -⟩ := hw
    exact unlinkBad_bits hv hset hidle.refs hb
  obtain ⟨e, hfind, -, hw⟩ := hw
  dsimp only at hw ⊢
  obtain ⟨i, hi⟩ : ∃ i, i = ((g.node d).ent e).inum := ⟨_, rfl⟩
  rw [← hi] at hw
  by_cases hips : ip = dp
  · rw [wp_bind]
    exact (ilock_asleep hw (by rw [hips]; exact hdp)).mono (fun _ _ hf => hf) fun _ _ => trivial
  refine ((ilock_calm ip).step (ilock_spec hw (.inl List.mem_cons_self) (by simpa using hips))).bind ?_
    fun _ _ => trivial
  rintro _ y ⟨hby, hy, hity⟩
  dsimp only at hy
  have hip : ip ∈ ({ip, dp} : Finset (Fin NINODE)) := Finset.mem_insert_self _ _
  have hati : View.At { g with
      refs := [(ip, i), (dp, d)], locks := {ip, dp}, op := true } ip i := .inl List.mem_cons_self
  have hdtype : (y.icache ip).din.type = (g.node i).type := by
    rw [hy.din_type hip, hy.inum_eq hati]
  simp only [wp_bind, wp_inode]
  refine wp_ite (fun _ => wp_panic.mpr trivial) fun _ => ?_
  -- A directory that is not empty is given back, and the call fails.
  have hfull : Wp (do iunlockput ip; unlinkBad dp) y (fun r t => r = -1 → SameBits s t)
      fun _ => True := by
    have hkeep : (g.node i).nlink = 0 → View.Uses { g with refs := [(dp, d)] } i := fun h0 =>
      View.Uses.mono (r := g.refs) (by simp [hidle.refs]) (hset i (h.lt_of_type hity) hity h0)
    refine ((iunlockput_calm hy (List.Perm.refl _) hip fun _ => hkeep).step
      (iunlockput_spec hy rfl (List.Perm.refl _) hip)).bind ?_ fun _ _ => trivial
    rintro _ z ⟨hbz, hz⟩
    have hdrop : View.drop { g with
        refs := [(ip, i), (dp, d)], locks := {ip, dp}, op := true } i [(dp, d)] = g.node :=
      View.drop_keep hkeep
    dsimp only at hz
    rw [Finset.erase_insert (by simpa using hips), hdrop] at hz
    exact unlinkBad_bits hz hset hidle.refs (((hb.trans hbw).trans hby).trans hbz)
  -- Otherwise it succeeds.
  have hdone : ∀ m : Kern Int, Wp m y (fun r _ => r ≠ -1) (fun _ => True) →
      Wp m y (fun r t => r = -1 → SameBits s t) fun _ => True :=
    fun m hm => hm.imp fun _ _ hr hc => absurd hc hr
  have hclear : ∀ z, Wp (clearEntry dp off ((y.icache ip).din.type = T_DIR) (removed ip dp)) z
      (fun r t => r = -1 → SameBits s t) fun _ => True := by
    intro z
    unfold clearEntry removed
    refine (wp_any (writei dp (List.replicate DESIZE 0) off)).bind (fun r x _ => ?_) fun _ _ => trivial
    refine wp_ite (fun _ => wp_panic.mpr trivial) fun _ => ?_
    refine (wp_any _).bind (fun _ x₁ _ => ?_) fun _ _ => trivial
    refine (wp_any _).bind (fun _ x₂ _ => ?_) fun _ _ => trivial
    refine (wp_any _).bind (fun _ x₃ _ => ?_) fun _ _ => trivial
    refine (wp_any _).bind (fun _ x₄ _ => ?_) fun _ _ => trivial
    refine (wp_any _).bind (fun _ x₅ _ => done_bits endOp) fun _ _ => trivial
  by_cases hd : (y.icache ip).din.type = T_DIR
  · rw [if_pos hd, wp_bind]
    refine (isdirempty_spec hy hip hati (hdtype.symm.trans hd)).mono ?_ fun _ _ => trivial
    rintro b z ⟨hzy, -⟩
    rw [wp_bind, wp_pure, hzy]
    exact wp_ite (fun _ => hfull) fun _ => hclear y
  · rw [if_neg hd, wp_bind, wp_pure]
    exact wp_ite (fun hc => by cases hc) fun _ => hclear y

theorem nlink_bits (h : Inv g s) (hop : g.op = true) (hk : k ∈ g.locks) (hat : g.At k i)
    (f : Int16 → Int16) :
    Wp (iupdate k) (s.setInode k fun ip => { ip with din := { ip.din with nlink := f ip.din.nlink } })
      (fun _ t => SameBits s t ∧
        Inv { g with node := upd g.node i { g.node i with nlink := f (g.node i).nlink } } t)
      fun _ => True := by
  have hi : ((s.setInode k fun ip =>
      { ip with din := { ip.din with nlink := f ip.din.nlink } }).icache k).inum < s.sb.ninodes := by
    rw [Fs.icache_setInode, upd_same, h.sb]
    change (s.icache k).inum < g.sb.ninodes
    rw [h.inum_eq hat]
    exact (h.at_lt hat).2
  exact ((iupdate_bits (s := s.setInode k _) h.geom' hi).and (nlink_spec h hop hk hat f)).mono
    (fun _ _ ht => ht) fun _ _ => trivial

theorem dirlink_bits (h : Inv g s) (hk : k ∈ g.locks) (hat : g.At k i)
    (hdir : (g.node i).type = T_DIR) (hset : g.Settled) (x : List UInt8) (inum : Nat) :
    Wp (dirlink k x inum) s (fun r t => r = -1 → SameBits s t) fun _ => True := by
  unfold dirlink
  refine ((dirlookup_calm h hk hat hdir x).step (dirlookup_spec h hk hat hdir x)).bind ?_
    fun _ _ => trivial
  rintro (_ | ⟨ip, off⟩) t ⟨hbt, ht⟩
  · simp only [wp_bind, wp_inode]
    refine (wp_any (dirlinkScan k _ 0)).imp fun o u _ => ?_
    refine (wp_any (writei k _ o)).imp fun r v _ => ?_
    exact wp_ite (fun _ => wp_panic.mpr trivial) fun _ => wp_pure.mpr fun hc => absurd hc (by decide)
  · obtain ⟨e, -, -, ht⟩ := ht
    dsimp only at ht ⊢
    have hput : Calm (iput ip) t := iput_calm ht (List.Perm.refl _) fun hty h0 =>
      hset _ (ht.lt_of_type hty) hty h0
    exact (hput.mono (fun _ _ hu => hu.sameBits) fun _ _ => trivial).bind
      (fun _ _ hu => wp_pure.mpr fun _ => hbt.trans hu) fun _ _ => trivial

theorem linkBad_bits (hidle : g.Idle) (hset : g.Settled)
    (h : Inv { g with node := g.counted i, refs := [(k, i)], op := true } s) (hs : SameBits s₀ s) :
    Wp (linkBad k) s (fun r t => r = -1 → SameBits s₀ t) fun _ => True := by
  unfold linkBad
  refine ((ilock_calm k).step (ilock_spec h (.inl List.mem_cons_self) (by simp [hidle.locks]))).bind ?_
    fun _ _ => trivial
  rintro _ t ⟨hbt, ht, -⟩
  dsimp only at ht
  rw [hidle.locks, insert_empty_eq] at ht
  simp only [wp_bind, wp_setDin]
  refine (nlink_bits ht rfl (Finset.mem_singleton_self _) (.inl List.mem_cons_self) (· - 1)).imp ?_
  rintro _ u ⟨hbu, hu⟩
  have hback : upd (g.counted i) i { g.counted i i with nlink := (g.counted i i).nlink - 1 } =
      g.node := by
    unfold View.counted
    rw [upd_upd, upd_same]
    unfold Node.withNlink
    dsimp only
    rw [Int16.add_sub_cancel]
    exact upd_eq_self _ _
  dsimp only at hu
  rw [hback] at hu
  have hput := put_bits hu hset hidle.refs ((hs.trans hbt).trans hbu)
  simpa only [wp_bind] using hput

theorem linkAt_bits (hidle : g.Idle) (hset : g.Settled) {x : List UInt8} {ip dp : Fin NINODE} {d : Nat}
    (h : Inv { g with node := g.counted i, refs := [(dp, d), (ip, i)], op := true } s)
    (hdir : (g.counted i d).type = T_DIR) (hs : SameBits s₀ s) :
    Wp (linkAt ip dp x) s
      (fun r t => r = -1 → SameBits s₀ t) fun _ => True := by
  have hty : (g.counted i d).type ≠ 0 := by rw [hdir]; decide
  have hrefd : (dp, d) ∈ [(dp, d), (ip, i)] := List.mem_cons_self
  have hrefi : (ip, i) ∈ [(dp, d), (ip, i)] := List.mem_cons_of_mem _ List.mem_cons_self
  have hdp := Finset.mem_singleton_self dp
  have hcount := View.Settled.counted (g := g) (k := ip) (i := i) hset hidle.refs true
  have hset' : View.Settled { g with
      node := g.counted i, refs := [(dp, d), (ip, i)], locks := {dp}, op := true } :=
    fun j hj hty h0 => View.Uses.mono (r := [(ip, i)]) (fun _ => List.mem_cons_of_mem _)
      (hcount j hj hty h0)
  unfold linkAt
  refine ((ilock_calm dp).step (ilock_spec h (.inl hrefd) (by simp [hidle.locks]))).bind ?_
    fun _ _ => trivial
  rintro _ t ⟨hbt, ht, -⟩
  dsimp only at ht
  rw [hidle.locks, insert_empty_eq] at ht
  simp only [wp_bind, wp_inode]
  rw [(ht.cache.slot dp (ht.ref_pos (.inl hrefd))).1, (ht.cache.slot ip (ht.ref_pos (.inl hrefi))).1,
    if_neg (not_not.mpr rfl)]
  simp only [wp_bind, wp_inode]
  rw [ht.inum_eq (.inl hrefi)]
  refine ((dirlink_bits ht hdp (.inl hrefd) hdir hset' x i).and
    (dirlink_spec ht rfl hdp (.inl hrefd) hdir x (h.at_lt (.inl hrefi)).2)).mono ?_ fun _ _ => trivial
  rintro r u ⟨hbu, ⟨rfl, -⟩ | ⟨rfl, e, node', -, -, hu, hnode'⟩⟩
  · refine wp_ite (fun hc => absurd hc (by decide)) fun _ => ?_
    refine (wp_any (iunlockput dp)).bind (fun _ v _ => ?_) fun _ _ => trivial
    exact (wp_any (iput ip)).bind (fun _ w _ => done_bits endOp) fun _ _ => trivial
  · refine wp_ite (fun _ => ?_) fun hc => absurd (by decide) hc
    have he : node' = g.counted i := by
      rcases hnode' with rfl | ⟨rfl, hty'⟩
      · rfl
      · exact hset'.drop_eq (h.lt_of_type hty') hty' fun _ => id
    rw [he] at hu
    have hkeep : (g.counted i d).nlink = 0 →
        View.Uses { g with node := g.counted i, refs := [(ip, i)], op := true } d :=
      fun h0 => hcount d (h.at_lt (.inl hrefd)).2 hty h0
    refine ((iunlockput_calm hu (List.Perm.refl _) hdp fun _ => hkeep).step
      (iunlockput_spec hu rfl (List.Perm.refl _) hdp)).bind ?_ fun _ _ => trivial
    rintro _ v ⟨hbv, hv⟩
    have hdrop : View.drop { g with
        node := g.counted i, refs := [(dp, d), (ip, i)], locks := {dp}, op := true } d [(ip, i)] =
        g.counted i := View.drop_keep hkeep
    dsimp only at hv
    rw [Finset.erase_singleton, ← hidle.locks, hdrop] at hv
    exact linkBad_bits hidle hset hv (((hs.trans hbt).trans (hbu rfl)).trans hbv)

theorem sysLink_bits (h : Inv g s) (hidle : g.Idle) (hset : g.Settled) (old new : Option (List UInt8)) :
    Wp (sysLink old new) s (fun r t => r = -1 → SameBits s t) fun _ => True := by
  unfold sysLink
  cases old with
  | none => exact wp_pure.mpr fun _ => .of_blk rfl rfl
  | some o =>
  cases new with
  | none => exact wp_pure.mpr fun _ => .of_blk rfl rfl
  | some n =>
  dsimp only
  refine (beginOp_bits.and (beginOp_spec h hidle.op (fun _ => True))).bind ?_ fun _ _ => trivial
  rintro _ t ⟨hbt, ht, -⟩
  have hin := hidle.inCall
  refine ((namei_calm ht hin.toRunning rfl hidle.locks hset o).step
    (namei_spec ht hin.toRunning rfl hidle.locks o)).bind ?_ fun _ _ => trivial
  rintro (_ | ip) u ⟨hbu, hu⟩
  · exact fail_bits (hbt.trans hbu)
  obtain ⟨node, i, hu, -, hsame⟩ := hu
  obtain ⟨rfl, -⟩ := hsame hset
  dsimp only at hu ⊢
  rw [hidle.refs] at hu
  refine ((ilock_calm ip).step (ilock_spec hu (.inl List.mem_cons_self) (by simp [hidle.locks]))).bind
    ?_ fun _ _ => trivial
  rintro _ v ⟨hbv, hv, -⟩
  dsimp only at hv
  rw [hidle.locks, insert_empty_eq] at hv
  have hk := Finset.mem_singleton_self ip
  have hb := (hbt.trans hbu).trans hbv
  simp only [wp_bind, wp_inode]
  refine wp_ite (fun _ => ?_) fun _ => ?_
  · have hput := put_bits hv hset hidle.refs hb
    simpa only [wp_bind] using hput
  simp only [wp_bind, wp_setDin]
  refine (nlink_bits hv rfl hk (.inl List.mem_cons_self) (· + 1)).imp ?_
  rintro _ w ⟨hbw, hw⟩
  refine ((iunlock_calm ip).step (iunlock_spec hw hk (fun _ => True))).imp ?_
  rintro _ x ⟨hbx, hx, -⟩
  dsimp only at hx
  rw [Finset.erase_singleton, ← hidle.locks] at hx
  have hx : Inv { g with node := g.counted i, refs := [(ip, i)], op := true } x := hx
  have hcount := View.Settled.counted (g := g) (k := ip) (i := i) hset hidle.refs true
  have hrun : View.Running { g with node := g.counted i, refs := [(ip, i)], op := true } :=
    ⟨hidle.owner, hidle.live, hidle.closed⟩
  have hb := (hb.trans hbw).trans hbx
  refine ((nameiparent_calm hx hrun rfl hidle.locks hcount n).step
    (nameiparent_spec hx hrun rfl hidle.locks n)).imp ?_
  rintro (_ | ⟨dp, y⟩) z ⟨hbz, hz⟩
  · obtain ⟨node₂, hz, -, hsame₂⟩ := hz
    obtain ⟨rfl, -⟩ := hsame₂ hcount
    exact linkBad_bits hidle hset hz (hb.trans hbz)
  · obtain ⟨node₂, d, hz, -, -, hdird, hsame₂⟩ := hz
    obtain rfl := hsame₂ hcount
    exact linkAt_bits hidle hset hz hdird (hb.trans hbz)

end Xv6
