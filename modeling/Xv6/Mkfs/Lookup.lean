import Xv6.Mkfs.Image

/-!
# The kernel reads the image

The kernel's side of the disk format: `readsb`, `dirlookup`, `readi` and the test
of a bit of the free map, run on an image that `mkfs` wrote.

The kernel looks a name up by reading entry after entry. The entry of a file
lies below the size that the root had before it was rounded, so the lookup ends
before it could meet a hole.
-/

namespace Xv6.Mkfs

open Table Bytes Hoare Scan

variable {m : Mk} {files : List HostFile} {s : Fs} {k : Fin NINODE}

/-! ## Reading mapped blocks -/

theorem readi_mapped {off n : Nat} (htype : (s.icache k).din.type ≠ T_DEV)
    (hle : off + n ≤ (s.icache k).din.size.toNat)
    (hmap : ∀ o, off ≤ o → o < off + n → (s.icache k).din.block s.blk (o / BSIZE) ≠ 0) (E : Stop → Prop) :
    Wp (readi k off n) s (fun r t => t = s ∧
      r = ((n : Int), (List.range n).map fun j => (s.icache k).din.contents s.blk (off + j))) E := by
  have hlt : off + n < 2 ^ 32 := Nat.lt_of_le_of_lt hle (s.icache k).din.size.toNat_lt
  unfold readi
  simp only [wp_bind, wp_inode]
  rw [if_neg htype, if_neg (by rw [Nat.mod_eq_of_lt hlt]; omega), if_neg (by omega)]
  refine (readBlocks_spec E n off n (Nat.le_refl _) hmap).seq ?_
  rintro bs t ⟨ht, hbs⟩
  exact wp_pure.mpr ⟨ht, by rw [hbs]⟩

/-! ## Entries -/

theorem getD_flatMap_const {α : Type} {w : Nat} {g : α → List UInt8} (hg : ∀ a, (g a).length = w) :
    ∀ {l : List α} {e j : Nat} {a : α}, l[e]? = some a → j < w →
      (l.flatMap g).getD (w * e + j) 0 = (g a).getD j 0
  | b :: l, 0, j, a, he, hj => by
    cases he
    rw [List.flatMap_cons, Nat.mul_zero, Nat.zero_add, List.getD_append _ _ _ _ (by rw [hg]; exact hj)]
  | b :: l, e + 1, j, a, he, hj => by
    rw [List.flatMap_cons, List.getD_append_right _ _ _ _ (by rw [hg, Nat.mul_succ]; omega), hg,
      show w * (e + 1) + j - w = w * e + j by rw [Nat.mul_succ]; omega]
    exact getD_flatMap_const hg he hj

/-- A kernel with the root of the image at the cache entry `k`. -/
structure AtRoot (s : Fs) (k : Fin NINODE) (m : Mk) : Prop where
  sb : s.sb = readsb m.img
  blk : s.blk = m.img
  din : (s.icache k).din = s.dinode ROOTINO

theorem readsb_eq (h : m.img 1 = sbBlock) : readsb m.img = sb := by
  rw [readsb, h]
  decide +kernel

theorem AtRoot.din_eq (hk : AtRoot s k m) (h : Finished m files) : (s.icache k).din = m.dinode ROOTINO := by
  rw [hk.din, Fs.dinode, hk.sb, hk.blk, readsb_eq h.filling.super, Mk.dinode]

theorem readEnt_root (hk : AtRoot s k m) (h : Finished m files) (hr : Room files) {e : Nat}
    {q : Nat × List UInt8} (he : (rootEntries files)[e]? = some q) (E : Stop → Prop) :
    Wp (readi k (DESIZE * e) DESIZE) s (fun r t => t = s ∧ r = ((DESIZE : Int), entry q.1 q.2)) E := by
  have hlt : e < files.length + 2 := by
    rw [← length_rootEntries]
    exact (List.getElem?_eq_some_iff.mp he).1
  have hdin := hk.din_eq h
  have hsize := h.rootSize_eq hr
  refine (readi_mapped ?_ ?_ (fun o h1 h2 => ?_) E).imp ?_
  · rw [hdin, h.root_type]
    decide
  · rw [hdin, hsize]
    simp only [rootSize, DESIZE, DIRSIZ, BSIZE]
    omega
  · rw [hdin, hk.blk, ← h.blk, h.rootSpans.data]
    simp only [DESIZE, DIRSIZ, BSIZE] at *
    omega
  · rintro r t ⟨ht, hrr⟩
    refine ⟨ht, hrr.trans (congrArg _ ?_)⟩
    refine List.ext_getElem (by rw [List.length_map, List.length_range, length_entry]) fun j h1 h2 => ?_
    rw [length_entry] at h2
    have hb := getD_flatMap_const (g := fun e : Nat × List UInt8 => entry e.1 e.2)
      (fun _ => length_entry _ _) he h2
    rw [List.getElem_map, List.getElem_range, hdin, hk.blk, ← h.blk, h.rootContents]
    refine hb.trans ?_
    rw [List.getD_eq_getElem _ _ (by rwa [length_entry])]

/-! ## Looking a name up -/

theorem iget_free (hfree : ∃ c, (s.icache c).ref = 0) (dev inum : Nat) :
    Wp (iget dev inum) s (fun c t => t.blk = s.blk ∧ (t.icache c).dev = dev ∧
      (t.icache c).inum = inum) fun _ => False := by
  unfold iget
  simp only [wp_bind, wp_get]
  split
  · next c hc =>
      have hp := of_decide_eq_true (firstFin_some hc)
      simp only [wp_bind, wp_setInode, wp_pure]
      rw [Fs.icache_setInode, upd_same]
      exact ⟨rfl, hp.2.1, hp.2.2⟩
  · split
    · simp only [wp_bind, wp_setInode, wp_pure]
      rw [Fs.icache_setInode, upd_same]
      exact ⟨rfl, rfl, rfl⟩
    · next hnone =>
        obtain ⟨c, hc⟩ := hfree
        have := firstFin_none hnone c
        rw [decide_eq_false_iff_not] at this
        exact (this hc).elim

/-- The kernel's `dirlookup` of `name` in the root finds the inode `inum`. -/
def Finds (m : Mk) (name : List UInt8) (inum : Nat) : Prop :=
  ∀ (s : Fs) (k : Fin NINODE), AtRoot s k m → (∃ c, (s.icache c).ref = 0) →
    Wp (dirlookup k name) s (fun r t => t.blk = s.blk ∧ ∃ c off, r = some (c, off) ∧
      (t.icache c).dev = (s.icache k).dev ∧ (t.icache c).inum = inum) fun _ => False

/-- Entry `i` of the root is the first with the name. -/
structure FirstNamed (files : List HostFile) (name : List UInt8) (i inum : Nat) : Prop where
  hit : ∃ q, (rootEntries files)[i]? = some q ∧ q.1 = inum ∧ nameKey q.2 = nameKey name
  inum_lt : inum ≠ 0 ∧ inum < NINODES
  before : ∀ e < i, ∀ q, (rootEntries files)[e]? = some q → nameKey q.2 ≠ nameKey name

theorem dirlookupFrom_root (hk : AtRoot s k m) (h : Finished m files) (hr : Room files)
    (hfree : ∃ c, (s.icache c).ref = 0) {name : List UInt8} {i inum : Nat}
    (hf : FirstNamed files name i inum) : ∀ (fuel e : Nat), e ≤ i → i < e + fuel →
      Wp (dirlookupFrom k name fuel (DESIZE * e)) s (fun r t => t.blk = s.blk ∧
        ∃ c off, r = some (c, off) ∧ (t.icache c).dev = (s.icache k).dev ∧
          (t.icache c).inum = inum) fun _ => False
  | 0, e, hle, hlt => by omega
  | fuel + 1, e, hle, hlt => by
    obtain ⟨p, hp, hp1, hp2⟩ := hf.hit
    have hlen : i < files.length + 2 := by
      rw [← length_rootEntries]
      exact (List.getElem?_eq_some_iff.mp hp).1
    obtain ⟨q, hq⟩ : ∃ q, (rootEntries files)[e]? = some q :=
      ⟨_, List.getElem?_eq_getElem (by rw [length_rootEntries]; omega)⟩
    unfold dirlookupFrom
    simp only [wp_bind, wp_inode]
    have hin : DESIZE * e < (s.icache k).din.size.toNat := by
      rw [hk.din_eq h, h.rootSize_eq hr]
      simp only [rootSize, DESIZE, DIRSIZ, BSIZE]
      omega
    rw [if_pos hin, wp_bind]
    refine (readEnt_root hk h hr hq _).imp ?_
    rintro ⟨r, bs⟩ t ⟨ht, hrr⟩
    obtain ⟨rfl, rfl⟩ := Prod.mk.inj hrr
    rw [ht]
    refine wp_ite (fun hc => absurd rfl hc) fun _ => ?_
    rw [entry, ofBytes_bytes_strncpy]
    -- the inode number fits in sixteen bits, so only the name decides
    rcases Nat.lt_or_eq_of_le hle with hei | rfl
    · refine wp_ite (fun hc => ?_) fun _ => ?_
      · have hkey := namecmp_iff.mp hc.2
        rw [nameKey_strncpy] at hkey
        exact absurd hkey.symm (hf.before e hei q hq)
      · have hrec := dirlookupFrom_root hk h hr hfree hf fuel (e + 1) hei (by omega)
        rwa [Nat.mul_succ] at hrec
    · rw [hp] at hq
      cases hq
      have hmod : p.1 % 65536 = inum := by
        rw [hp1]
        have := hf.inum_lt.2
        simp only [NINODES] at this
        omega
      rw [hmod]
      refine wp_ite (fun _ => ?_) fun hc => ?_
      · rw [wp_bind]
        refine (iget_free hfree _ _).imp ?_
        rintro c t ⟨hb, hd, hi⟩
        exact wp_pure.mpr ⟨hb, c, _, rfl, hd, hi⟩
      · refine absurd ⟨hf.inum_lt.1, namecmp_iff.mpr ?_⟩ hc
        rw [nameKey_strncpy, hp2]

theorem Finished.finds (h : Finished m files) (hr : Room files) {name : List UInt8} {i inum : Nat}
    (hf : FirstNamed files name i inum) : Finds m name inum := by
  intro s k hk hfree
  obtain ⟨p, hp, -⟩ := hf.hit
  have hlen : i < files.length + 2 := by
    rw [← length_rootEntries]
    exact (List.getElem?_eq_some_iff.mp hp).1
  unfold dirlookup
  simp only [wp_bind, wp_inode]
  refine wp_ite (fun hc => absurd ?_ hc) fun _ => ?_
  · rw [hk.din_eq h, h.root_type]
  · rw [hk.din_eq h, h.rootSize_eq hr]
    refine dirlookupFrom_root hk h hr hfree hf _ 0 (Nat.zero_le _) ?_
    simp only [rootSize, DESIZE, DIRSIZ, BSIZE]
    omega

/-! ## Reading a file -/

/-- The kernel's `readi` of the whole of the inode `inum` returns `data`. -/
def Reads (m : Mk) (inum : Nat) (data : List UInt8) : Prop :=
  ∀ (s : Fs) (k : Fin NINODE), s.sb = readsb m.img → s.blk = m.img →
    (s.icache k).din = s.dinode inum →
    Wp (readi k 0 (s.icache k).din.size.toNat) s
      (fun r t => t = s ∧ r = ((data.length : Int), data)) fun _ => False

variable {j : Nat} {f : HostFile}

theorem Finished.reads (h : Finished m files) (hj : files[j]? = some f) : Reads m (j + 2) f.data := by
  intro s k hsb hblk hdin
  have hf := h.file j f hj
  have hd : (s.icache k).din = m.dinode (j + 2) := by
    rw [hdin, Fs.dinode, hsb, hblk, readsb_eq h.filling.super, Mk.dinode]
  have hsize : (s.icache k).din.size.toNat = f.data.length := by rw [hd, hf.size_eq]
  rw [hsize]
  refine (readi_mapped ?_ (by rw [hsize, Nat.zero_add]) (fun o _ ho => ?_) _).imp ?_
  · rw [hd, hf.type_eq]
    decide
  · rw [hd, hblk, ← h.blk, hf.spans.data]
    simp only [BSIZE] at *
    omega
  · rintro r t ⟨ht, hr⟩
    refine ⟨ht, hr.trans (congrArg _ ?_)⟩
    refine List.ext_getElem (by rw [List.length_map, List.length_range]) fun o h1 h2 => ?_
    rw [List.getElem_map, List.getElem_range, hd, hblk, ← h.blk, hf.contents, Nat.zero_add,
      List.getD_eq_getElem _ _ h2]

/-! ## The names -/

def HostFile.name (f : HostFile) : List UInt8 := f.stripped.take DIRSIZ

/-- The names of the arguments: no slashes, no two alike, and none of those that
every directory has. -/
structure Named (files : List HostFile) : Prop where
  slash : ∀ f ∈ files, Xv6.slash ∉ f.arg
  distinct : files.Pairwise fun f g => f.name ≠ g.name
  dots : ∀ f ∈ files, f.name ≠ [46] ∧ f.name ≠ [46, 46]

theorem HostFile.stripped_ne (f : HostFile) : ∀ c ∈ f.stripped, c ≠ 0 := by
  intro c hc
  unfold HostFile.stripped at hc
  split at hc
  · exact f.arg_ne c (List.mem_of_mem_tail hc)
  · exact f.arg_ne c hc

theorem HostFile.nameKey_stripped (f : HostFile) : nameKey f.stripped = f.name := by
  rw [nameKey, cstr, HostFile.name, List.takeWhile_eq_self_iff]
  intro c hc
  exact decide_eq_true (f.stripped_ne c (List.mem_of_mem_take hc))

theorem HostFile.nameKey_name (f : HostFile) : nameKey f.name = f.name := by
  rw [nameKey, HostFile.name, List.take_take, Nat.min_self]
  exact f.nameKey_stripped

theorem rootEntries_file (hj : files[j]? = some f) :
    (rootEntries files)[j + 2]? = some (j + 2, f.stripped) := by
  simp [rootEntries, hj, Nat.add_comm]

theorem Named.first (hn : Named files) (hr : Room files)
    (hj : files[j]? = some f) : FirstNamed files f.name (j + 2) (j + 2) where
  hit := ⟨_, rootEntries_file hj, rfl, by rw [f.nameKey_stripped, f.nameKey_name]⟩
  inum_lt := by
    have := (List.getElem?_eq_some_iff.mp hj).1
    have := hr.inodes
    omega
  before := fun e he q hq => by
    obtain ⟨hdot, hdots⟩ := hn.dots f (List.mem_of_getElem? hj)
    rw [f.nameKey_name]
    rcases e with _ | _ | e
    · cases hq
      exact hdot.symm
    · cases hq
      exact hdots.symm
    · obtain ⟨hlt, hfj⟩ := List.getElem?_eq_some_iff.mp hj
      have hel : e < files.length := by omega
      have hg := rootEntries_file (List.getElem?_eq_getElem hel)
      rw [hq] at hg
      cases hg
      rw [HostFile.nameKey_stripped]
      have hne := List.pairwise_iff_getElem.mp hn.distinct e j hel hlt (by omega)
      rwa [hfj] at hne

/-! ## The image is what the kernel takes it for -/

/-- No block is at two positions of the inodes. -/
def NoSharing (m : Mk) : Prop :=
  ∀ i < NINODES, ∀ j < NINODES, (m.dinode i).type ≠ 0 → (m.dinode j).type ≠ 0 →
    ∀ p q, (m.dinode i).ptr m.img p = (m.dinode j).ptr m.img q → (m.dinode i).ptr m.img p ≠ 0 →
      i = j ∧ p = q

/-- On arguments that fit, `mkfs` writes an image in which the kernel finds every
file under its name and reads its bytes, in which no two inodes share a block, and
whose free map marks the blocks below `freeblock`. -/
theorem image_readable (hr : Room files) (hsize : ∀ f ∈ files, f.data.length ≤ MAXFILE * BSIZE)
    (hn : Named files) : ∃ m, main files = some m ∧
      (∀ f ∈ files, ∃ inum, Finds m f.name inum ∧ Reads m inum f.data) ∧ NoSharing m ∧
      ∀ b < BPB, (readsb m.img).bit m.img b = decide (b < m.freeblock) := by
  obtain ⟨m, he, h⟩ := main_spec hr fun f hf => ⟨hn.slash f hf, hsize f hf⟩
  refine ⟨m, he, fun f hf => ?_, fun i hi j hj ht hu p q => ?_, fun b hb => ?_⟩
  · obtain ⟨j, hj⟩ := List.getElem?_of_mem hf
    exact ⟨j + 2, h.finds hr (hn.first hr hj), h.reads hj⟩
  · rw [← h.blk]
    exact h.filling.owned.ptr_inj hi ht hj hu
  · rw [readsb_eq h.filling.super, ← h.blk]
    exact m.bit_blk hb h.filling.le_BPB

/-- The argument `_cat`, whose three bytes come from two reads. -/
def catFile : HostFile where
  arg := [95, 99, 97, 116]
  reads := [[104, 105], [33]]
  arg_ne := by decide +kernel
  read_len := by decide +kernel

theorem image_readable_cat : ∃ m, main [catFile] = some m ∧
    ∃ inum, Finds m [99, 97, 116] inum ∧ Reads m inum [104, 105, 33] := by
  have hn : Named [catFile] := ⟨by decide, List.pairwise_singleton _ _, by decide⟩
  obtain ⟨m, he, hf, -⟩ := image_readable ⟨by decide, by decide⟩ (by decide) hn
  exact ⟨m, he, hf catFile List.mem_cons_self⟩

end Xv6.Mkfs
