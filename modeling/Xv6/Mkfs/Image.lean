import Xv6.Mkfs.Append
import Xv6.Fs.Entry

/-!
# The image

What `main` writes. After the arguments `done` were copied the image holds the
root directory with one entry for each of them and the files with their bytes
(`Built`), and `main` then rounds the size of the root up and writes the free
map.

The rounding is `(off / BSIZE + 1) * BSIZE`. A root that fills its last block is
rounded up too, and has a hole then.
-/

namespace Xv6.Mkfs

open Table Bytes Pool

variable {m m' : Mk} {done files : List HostFile}

/-! ## The root directory -/

/-- The entries of the root, with the names before they are cut. -/
def rootEntries (files : List HostFile) : List (Nat × List UInt8) :=
  (ROOTINO, [46]) :: (ROOTINO, [46, 46]) :: (files.zipIdx 2).map fun q => (q.2, q.1.stripped)

def rootBytes (files : List HostFile) : List UInt8 :=
  (rootEntries files).flatMap fun e => entry e.1 e.2

theorem length_entry (inum : Nat) (name : List UInt8) : (entry inum name).length = DESIZE :=
  length_bytes _

theorem length_flatMap_const {α : Type} {w : Nat} {g : α → List UInt8} (hg : ∀ a, (g a).length = w) :
    ∀ l : List α, (l.flatMap g).length = w * l.length
  | [] => rfl
  | a :: l => by
    rw [List.flatMap_cons, List.length_append, hg, length_flatMap_const hg l, List.length_cons,
      Nat.mul_succ, Nat.add_comm]

theorem length_rootEntries (files : List HostFile) : (rootEntries files).length = files.length + 2 := by
  simp [rootEntries]

theorem length_rootBytes (files : List HostFile) :
    (rootBytes files).length = DESIZE * (files.length + 2) := by
  rw [rootBytes, length_flatMap_const (w := DESIZE) (fun _ => length_entry _ _), length_rootEntries]

theorem rootBytes_snoc (done : List HostFile) (f : HostFile) :
    rootBytes (done ++ [f]) = rootBytes done ++ entry (done.length + 2) f.stripped := by
  simp [rootBytes, rootEntries, List.zipIdx_append, Nat.add_comm]

/-! ## How many blocks an image uses -/

/-- The blocks that `mkfs` hands out for the arguments, with those before the data. -/
def blocksUsed (files : List HostFile) : Nat :=
  nmeta + blocksFor (DESIZE * (files.length + 2)) +
    (files.map fun f => blocksFor f.data.length).sum

theorem blocksUsed_le_append (done rest : List HostFile) : blocksUsed done ≤ blocksUsed (done ++ rest) := by
  have hmono : blocksFor (DESIZE * (done.length + 2)) ≤
      blocksFor (DESIZE * ((done ++ rest).length + 2)) := by
    refine blocksFor_mono (Nat.mul_le_mul_left _ ?_)
    rw [List.length_append]
    omega
  rw [blocksUsed, blocksUsed, List.map_append, List.sum_append]
  omega

/-! ## The arguments -/

/-- The image after the arguments `done`. -/
structure Built (m : Mk) (done : List HostFile) : Prop where
  filling : Filling m m.dinode
  freeinode : m.freeinode = done.length + 2
  root : Holds m ROOTINO T_DIR (rootBytes done)
  file : ∀ k f, done[k]? = some f → Holds m (k + 2) T_FILE f.data
  unused : ∀ i < NINODES, i = 0 ∨ done.length + 2 ≤ i → m.dinode i = Dinode.zero
  freeblock : m.freeblock = blocksUsed done

theorem ptr_fresh (type : Int16) (blk : Nat → Block) (p : Nat) :
    ({ Dinode.zero with type := type, nlink := 1 } : Dinode).ptr blk p = 0 :=
  Dinode.ptr_of_addr_zero
    (fun q _ => Dinode.addr_noBlocks { Dinode.zero with type := type, nlink := 1 } q) blk p

theorem ptr_zero (blk : Nat → Block) (p : Nat) : Dinode.zero.ptr blk p = 0 :=
  Dinode.ptr_of_addr_zero (fun q _ => Dinode.addr_noBlocks Dinode.zero q) blk p

theorem ialloc_spec (h : Filling m m.dinode) (hlt : m.freeinode < NINODES)
    (hz : m.dinode m.freeinode = Dinode.zero) {type : Int16} (htype : type ≠ 0) :
    ∃ t, ialloc m type = some (t, m.freeinode) ∧ Filling t t.dinode ∧
      Holds t m.freeinode type [] ∧ (∀ j, j ≠ m.freeinode → t.dinode j = m.dinode j) ∧
      (∀ j < NINODES, j ≠ m.freeinode → (m.dinode j).type ≠ 0 → Keeps m t j) ∧
      t.freeblock = m.freeblock ∧ t.freeinode = m.freeinode + 1 := by
  obtain ⟨d, hd⟩ : ∃ d : Dinode, d = { Dinode.zero with type := type, nlink := 1 } := ⟨_, rfl⟩
  have hptr : ∀ blk p, d.ptr blk p = 0 := fun blk p => by rw [hd]; exact ptr_fresh type blk p
  have howned : Owned sb m.blk (upd m.dinode m.freeinode d) ∅ := by
    have ho := h.owned
    rw [← upd_eq_self m.dinode m.freeinode] at ho
    exact ho.congr_cleared (fun p => by rw [hz, ptr_zero]) (.inr (hptr _))
  have hfill : Filling { m with freeinode := m.freeinode + 1 } (upd m.dinode m.freeinode d) :=
    ⟨h.super, howned, h.start, h.fits, h.zeros⟩
  obtain ⟨t, he, hf, htab, hdata, hfb, hfi⟩ :=
    Filling.winode (m := { m with freeinode := m.freeinode + 1 }) hfill hlt
  have hself : t.dinode m.freeinode = d := by rw [htab, upd_same]
  have hother : ∀ j, j ≠ m.freeinode → t.dinode j = m.dinode j := fun j hj => by
    rw [htab, upd_ne _ _ hj]
    rfl
  refine ⟨t, ?_, hf, ⟨hlt, htype, ?_, Nat.zero_le _, ⟨fun bn => ?_, ?_⟩, fun o => ?_⟩, hother,
    fun j hj hne hu => ?_, hfb, hfi⟩
  · unfold ialloc
    rw [← hd]
    simp only [he]
    rfl
  · rw [hself, hd]
    rfl
  · rw [hself, Dinode.block, hptr]
    simp
  · have h0 := hptr t.blk NDIRECT
    rw [Dinode.ptr_of_le _ _ (Nat.le_refl _)] at h0
    rw [hself, h0]
    simp
  · rw [hself, Dinode.contents, Dinode.block, hptr, if_pos rfl, List.getD_nil]
  · have hs := h.owned.same_of_data hdata hj hu
    exact ⟨hother j hne, hs.1, hs.2⟩

/-- Room for the arguments: the inodes and the blocks are enough. -/
structure Room (files : List HostFile) : Prop where
  inodes : files.length + 2 ≤ NINODES
  blocks : blocksUsed files ≤ FSSIZE

theorem Room.take {rest : List HostFile} (h : Room (done ++ rest)) : Room done where
  inodes := by
    have := h.inodes
    rw [List.length_append] at this
    omega
  blocks := (blocksUsed_le_append done rest).trans h.blocks

theorem rootino_ne (k : Nat) : ROOTINO ≠ k + 2 := by
  simp only [ROOTINO]
  omega

theorem entry_spec {f : HostFile} (h : Built m done) (hr : Room (done ++ [f])) :
    ∃ m₁ m₂, ialloc m T_FILE = some (m₁, done.length + 2) ∧
      iappend m₁ ROOTINO (entry (done.length + 2) f.stripped) = some m₂ ∧
      Filling m₂ m₂.dinode ∧ Holds m₂ (done.length + 2) T_FILE [] ∧
      Holds m₂ ROOTINO T_DIR (rootBytes (done ++ [f])) ∧
      (∀ k g, done[k]? = some g → Holds m₂ (k + 2) T_FILE g.data) ∧
      (∀ i < NINODES, i = 0 ∨ done.length + 3 ≤ i → m₂.dinode i = Dinode.zero) ∧
      m₂.freeinode = done.length + 3 ∧
      m₂.freeblock + blocksFor f.data.length = blocksUsed (done ++ [f]) := by
  have hlen : (done ++ [f]).length = done.length + 1 := by simp
  have hin := hr.inodes
  have hbl := hr.blocks
  rw [hlen] at hin
  have hused : blocksUsed (done ++ [f]) + blocksFor (DESIZE * (done.length + 2)) =
      blocksUsed done + blocksFor (DESIZE * (done.length + 2) + DESIZE) +
        blocksFor f.data.length := by
    rw [blocksUsed, blocksUsed, hlen, List.map_append, List.sum_append, ← Nat.mul_succ]
    simp only [List.map_cons, List.map_nil, List.sum_cons, List.sum_nil]
    have : done.length + 1 + 2 = (done.length + 2).succ := rfl
    rw [this]
    omega
  obtain ⟨m₁, he₁, hf₁, hnew, hd₁, hk₁, hfb₁, hfi₁⟩ := ialloc_spec h.filling
    (by rw [h.freeinode]; omega) (h.unused _ (by rw [h.freeinode]; omega) (.inr (Nat.le_of_eq h.freeinode.symm)))
    (by decide : T_FILE ≠ 0)
  rw [h.freeinode] at he₁ hnew hd₁ hk₁ hfi₁
  have hlive : ∀ {j : Nat} {type : Int16} {c : List UInt8}, Holds m j type c →
      (m.dinode j).type ≠ 0 := fun hj => by rw [hj.type_eq]; exact hj.type_ne
  have hroot : Holds m₁ ROOTINO T_DIR (rootBytes done) :=
    h.root.keep (hk₁ _ h.root.lt (rootino_ne _) (hlive h.root))
  have hmax : (rootBytes done).length + (entry (done.length + 2) f.stripped).length ≤
      MAXFILE * BSIZE := by
    rw [length_rootBytes, length_entry]
    simp only [NINODES, DESIZE, DIRSIZ, MAXFILE, NDIRECT, NINDIRECT, BSIZE] at *
    omega
  obtain ⟨m₂, he₂, hw⟩ := iappend_spec hf₁ hroot hmax (by
    rw [length_rootBytes, length_entry, hfb₁, h.freeblock]
    omega)
  have hfb := hw.freeblock
  rw [List.length_append, length_rootBytes, length_entry, hfb₁, h.freeblock] at hfb
  have hwr := hw.holds
  rw [← rootBytes_snoc] at hwr
  have hnewlt := hnew.lt
  refine ⟨m₁, m₂, he₁, he₂, hw.filling, ?_, hwr, fun k g hk => ?_, fun i hi hc => ?_,
    hw.freeinode.trans hfi₁, by omega⟩
  · exact hnew.keep (hw.keeps _ hnew.lt (rootino_ne _).symm (by rw [hnew.type_eq]; decide))
  · have hg := h.file k g hk
    have hklt : k < done.length := (List.getElem?_eq_some_iff.mp hk).1
    have hg₁ := hg.keep (hk₁ _ hg.lt (by omega) (hlive hg))
    exact hg₁.keep (hw.keeps _ hg.lt (rootino_ne _).symm (by rw [hg₁.type_eq]; decide))
  · have hne : i ≠ ROOTINO := by rcases hc with rfl | hc <;> simp only [ROOTINO] <;> omega
    rw [hw.dinode i hi hne, hd₁ i (by omega)]
    exact h.unused i hi (hc.imp id (by omega))

theorem addFile_spec {f : HostFile} (h : Built m done) (hr : Room (done ++ [f]))
    (hname : slash ∉ f.arg) (hmax : f.data.length ≤ MAXFILE * BSIZE) :
    ∃ m', addFile ROOTINO m f = some m' ∧ Built m' (done ++ [f]) := by
  obtain ⟨m₁, m₂, he₁, he₂, hf, hnew, hroot, hfile, hunused, hfi, hfb⟩ := entry_spec h hr
  have hbl := hr.blocks
  have h0 : blocksFor 0 = 0 := by decide
  obtain ⟨m₃, he₃, hw⟩ := reads_spec f.reads m₂ [] hf hnew (by rw [List.length_nil, Nat.zero_add]; exact hmax)
    (by
      rw [List.length_nil, Nat.zero_add, h0]
      change m₂.freeblock + blocksFor f.data.length ≤ _
      omega)
  have hlen : (done ++ [f]).length = done.length + 1 := by simp
  have hfb₃ := hw.freeblock
  rw [List.nil_append, List.length_nil, h0] at hfb₃
  refine ⟨m₃, ?_, hw.filling, ?_, ?_, fun k g hk => ?_, fun i hi hc => ?_, ?_⟩
  · rw [addFile, if_neg hname, he₁]
    simp only [Option.bind_eq_bind, Option.bind_some, he₂]
    exact he₃
  · rw [hw.freeinode, hfi, hlen]
  · exact hroot.keep (hw.keeps _ hroot.lt (rootino_ne _) (by rw [hroot.type_eq]; decide))
  · rw [List.getElem?_append] at hk
    split at hk
    · next hlt =>
        have hg := hfile k g hk
        exact hg.keep (hw.keeps _ hg.lt (by omega) (by rw [hg.type_eq]; decide))
    · next hge =>
        have hk0 : k - done.length = 0 := by
          have := (List.getElem?_eq_some_iff.mp hk).1
          simp only [List.length_singleton] at this
          omega
        rw [hk0] at hk
        cases hk
        have hkd : k + 2 = done.length + 2 := by omega
        rw [hkd]
        exact hw.holds
  · rw [hlen] at hc
    rw [hw.dinode i hi (by omega)]
    exact hunused i hi (hc.imp id (by omega))
  · change m₃.freeblock + 0 = m₂.freeblock + blocksFor f.data.length at hfb₃
    omega

theorem addFile_le {f : HostFile} (h : Built m done) (hr : Room (done ++ [f]))
    (he : addFile ROOTINO m f = some m') : slash ∉ f.arg ∧ f.data.length ≤ MAXFILE * BSIZE := by
  obtain ⟨m₁, m₂, he₁, he₂, hf, hnew, -, -, -, -, hfb⟩ := entry_spec h hr
  have hbl := hr.blocks
  have h0 : blocksFor 0 = 0 := by decide
  rw [addFile] at he
  split at he
  · cases he
  · next hname =>
      rw [he₁] at he
      simp only [Option.bind_eq_bind, Option.bind_some, he₂] at he
      have hle := reads_le f.reads m₂ [] (fun r hr => (f.read_len r hr).1) hf hnew
        (by
          rw [List.length_nil, Nat.zero_add, h0]
          change m₂.freeblock + blocksFor f.data.length ≤ _
          omega) he
      rw [List.length_nil, Nat.zero_add] at hle
      exact ⟨hname, hle⟩

theorem files_spec : ∀ (rest done : List HostFile) (m : Mk), Built m done → Room (done ++ rest) →
    (∀ f ∈ rest, slash ∉ f.arg ∧ f.data.length ≤ MAXFILE * BSIZE) →
    ∃ m', rest.foldlM (addFile ROOTINO) m = some m' ∧ Built m' (done ++ rest)
  | [], done, m, h, _, _ => ⟨m, rfl, by rwa [List.append_nil]⟩
  | f :: rest, done, m, h, hr, hall => by
    rw [← List.singleton_append, ← List.append_assoc] at hr ⊢
    obtain ⟨hname, hmax⟩ := hall f List.mem_cons_self
    obtain ⟨m₁, he, hb⟩ := addFile_spec h hr.take hname hmax
    obtain ⟨m₂, he₂, hb₂⟩ := files_spec rest (done ++ [f]) m₁ hb hr
      fun g hg => hall g (List.mem_cons_of_mem _ hg)
    refine ⟨m₂, ?_, hb₂⟩
    rw [List.singleton_append, List.foldlM_cons, he]
    exact he₂

theorem files_le : ∀ (rest done : List HostFile) (m : Mk), Built m done → Room (done ++ rest) →
    rest.foldlM (addFile ROOTINO) m = some m' → ∀ f ∈ rest, slash ∉ f.arg ∧ f.data.length ≤ MAXFILE * BSIZE
  | [], _, _, _, _, _ => fun _ hf => absurd hf List.not_mem_nil
  | f :: rest, done, m, h, hr, he => by
    rw [← List.singleton_append, ← List.append_assoc] at hr
    rw [List.foldlM_cons] at he
    obtain ⟨m₁, he₁, he₂⟩ := Option.bind_eq_some_iff.mp he
    have hf := addFile_le h hr.take he₁
    obtain ⟨m₁', he₁', hb⟩ := addFile_spec h hr.take hf.1 hf.2
    rw [he₁] at he₁'
    cases he₁'
    intro g hg
    rcases List.mem_cons.mp hg with rfl | hg
    · exact hf
    · exact files_le rest (done ++ [f]) m₁ hb hr he₂ g hg

/-! ## Before the arguments -/

theorem dinode_zeroBlock (k : Nat) : Block.dinode zeroBlock k = Dinode.zero := by
  have hz : ∀ off w, getLE zeroBlock off w = 0 := fun off w => by
    rw [getLE_eq_of_bytes (v := 0) fun i _ => by simp [leByte], Nat.zero_mod]
  simp only [Block.dinode, hz, Dinode.zero]
  congr 1

theorem img_blank : blank.img = upd (fun _ => zeroBlock) 1 sbBlock := rfl

theorem dinode_blank (i : Nat) : blank.dinode i = Dinode.zero := by
  have hge : sb.inodestart ≤ sb.iblock i := Nat.le_add_left _ _
  have hlo : 1 < sb.inodestart := by decide
  have hne : sb.iblock i ≠ 1 := by omega
  rw [Mk.dinode, img_blank, upd_ne _ _ hne, dinode_zeroBlock]

theorem blank_filling : Filling blank blank.dinode where
  super := by rw [img_blank, upd_same]
  owned := by
    have hown : ∀ q, sb.own blank.blk blank.dinode q = 0 := fun q => by
      unfold Superblock.own
      split
      · rw [dinode_blank, ptr_zero]
      · rfl
    have hbit : ∀ b < BPB, sb.bit blank.blk b = decide (b < nmeta) := fun b hb =>
      blank.bit_blk hb (by decide)
    have hused : ∀ b, ¬ sb.Used blank.blk b := fun b hb => by
      have hlt := of_decide_eq_true ((hbit b (Nat.lt_trans hb.1.2 (by decide))).symm.trans hb.2)
      have hge := hb.1.1
      rw [datastart_eq] at hge
      omega
    refine ⟨fun b hb => ?_, ⟨fun p q _ h0 => absurd (hown p) h0, fun b hb => hb.elim,
      fun b hb => hb.elim, fun b h0 => iff_of_false (hused b) ?_⟩⟩
    · rw [datastart_eq] at hb
      rw [hbit b (Nat.lt_trans hb (by decide))]
      exact decide_eq_true hb
    · rintro (⟨p, hp⟩ | hb)
      · exact h0 (hp.symm.trans (hown p))
      · exact hb.elim
  start := Nat.le_refl _
  fits := by decide
  zeros := fun b hb => by
    have hne : b ≠ 1 := by
      have : 1 < nmeta := by decide
      have : nmeta ≤ b := hb
      omega
    rw [img_blank, upd_ne _ _ hne]

theorem start_spec : ∃ m₀ m₁ m₂, ialloc blank T_DIR = some (m₀, ROOTINO) ∧
    iappend m₀ ROOTINO (entry ROOTINO [46]) = some m₁ ∧
    iappend m₁ ROOTINO (entry ROOTINO [46, 46]) = some m₂ ∧ Built m₂ [] := by
  have h0 : blank.freeinode < NINODES := by decide
  obtain ⟨m₀, he₀, hf₀, hroot, hd₀, -, hfb₀, hfi₀⟩ :=
    ialloc_spec blank_filling h0 (dinode_blank _) (by decide : T_DIR ≠ 0)
  change ialloc blank T_DIR = some (m₀, ROOTINO) at he₀
  change Holds m₀ ROOTINO T_DIR [] at hroot
  change m₀.freeblock = nmeta at hfb₀
  obtain ⟨m₁, he₁, hw₁⟩ := iappend_spec hf₀ hroot (p := entry ROOTINO [46])
    (by rw [length_entry]; decide) (by rw [length_entry, hfb₀]; decide)
  have hfb₁ := hw₁.freeblock
  have hlen₁ : ([] ++ entry ROOTINO [46]).length = DESIZE := length_entry _ _
  rw [hlen₁, hfb₀] at hfb₁
  obtain ⟨m₂, he₂, hw₂⟩ := iappend_spec hw₁.filling hw₁.holds (p := entry ROOTINO [46, 46])
    (by rw [length_entry, hlen₁]; decide)
    (by
      rw [length_entry, hlen₁]
      have : blocksFor ([] : List UInt8).length = 0 := by decide
      have : nmeta + blocksFor (DESIZE + DESIZE) ≤ FSSIZE := by decide
      omega)
  have hfb₂ := hw₂.freeblock
  have hlen₂ : ([] ++ entry ROOTINO [46] ++ entry ROOTINO [46, 46]).length = DESIZE * 2 := by
    rw [List.length_append, hlen₁, length_entry, Nat.mul_two]
  rw [hlen₂, hlen₁] at hfb₂
  refine ⟨m₀, m₁, m₂, he₀, he₁, he₂, hw₂.filling, ?_, ?_, fun k f hk => ?_, fun i hi hc => ?_, ?_⟩
  · rw [hw₂.freeinode, hw₁.freeinode, hfi₀]
    rfl
  · have hr := hw₂.holds
    have hb : rootBytes [] = [] ++ entry ROOTINO [46] ++ entry ROOTINO [46, 46] := by
      simp [rootBytes, rootEntries]
    rwa [← hb] at hr
  · simp at hk
  · have hne : i ≠ ROOTINO := by
      simp only [List.length_nil, ROOTINO] at *
      omega
    rw [hw₂.dinode i hi hne, hw₁.dinode i hi hne, hd₀ i hne, dinode_blank]
  · have : blocksFor ([] : List UInt8).length = 0 := by decide
    have hu : blocksUsed [] = nmeta + blocksFor (DESIZE * 2) := by decide
    rw [hu]
    omega

/-! ## After the arguments -/

/-- The size of the root of an image with `n` files. -/
def rootSize (n : Nat) : Nat := (DESIZE * (n + 2) / BSIZE + 1) * BSIZE

/-- The image that `main` leaves. -/
structure Finished (m : Mk) (files : List HostFile) : Prop where
  blk : m.blk = m.img
  filling : Filling m m.dinode
  root : m.dinode ROOTINO =
    ⟨T_DIR, 0, 0, 1, UInt32.ofNat (rootSize files.length), (m.dinode ROOTINO).addrs⟩
  rootSpans : Spans (m.dinode ROOTINO) m.blk (DESIZE * (files.length + 2))
  rootContents : ∀ o, (m.dinode ROOTINO).contents m.blk o = (rootBytes files).getD o 0
  file : ∀ k f, files[k]? = some f → Holds m (k + 2) T_FILE f.data
  unused : ∀ i < NINODES, i = 0 ∨ files.length + 2 ≤ i → m.dinode i = Dinode.zero

theorem finish_spec (h : Built m files) : ∃ t, finish m ROOTINO = some t ∧ Finished t files := by
  have hsize : (m.dinode ROOTINO).size.toNat = DESIZE * (files.length + 2) := by
    rw [h.root.size_eq, length_rootBytes]
  have hlive : (m.dinode ROOTINO).type ≠ 0 := by rw [h.root.type_eq]; decide
  obtain ⟨d, hd⟩ : ∃ d, d = { m.dinode ROOTINO with size := UInt32.ofNat (rootSize files.length) } :=
    ⟨_, rfl⟩
  have haddrs : d.addrs = (m.dinode ROOTINO).addrs := by rw [hd]
  have hfill : Filling m (upd m.dinode ROOTINO d) := by
    refine ⟨h.filling.super, ?_, h.filling.start, h.filling.fits, h.filling.zeros⟩
    have ho := h.filling.owned
    rw [← upd_eq_self m.dinode ROOTINO] at ho
    exact ho.set_fields (by rw [hd]) haddrs
  obtain ⟨u, he, hf, htab, hdata, hfb, -⟩ := hfill.winode h.root.lt
  obtain ⟨t, ht⟩ : ∃ t, t = wsect u sb.bmapstart (bitmapOf u.freeblock) := ⟨_, rfl⟩
  have himg : t.img = u.blk := by rw [ht]; rfl
  have hblk : t.blk = u.blk := by rw [Mk.blk, himg, ht, Mk.blk]; exact upd_upd _ _ _ _
  have hdin : ∀ i < NINODES, t.dinode i = u.dinode i := fun i hi => by
    rw [Mk.dinode, himg, u.blk_of_ne (iblock_ne hi), Mk.dinode]
  have hsame := fun j (hj : j < NINODES) hu => h.filling.owned.same_of_data hdata (j := j) hj hu
  have hkeep : ∀ j < NINODES, j ≠ ROOTINO → (m.dinode j).type ≠ 0 → Keeps m t j :=
    fun j hj hne hu => by
      refine ⟨?_, fun p => ?_, fun o => ?_⟩
      · rw [hdin j hj, htab, upd_ne _ _ hne]
      · rw [hblk, (hsame j hj hu).1]
      · rw [hblk, (hsame j hj hu).2]
  have hself : t.dinode ROOTINO = d := by rw [hdin _ h.root.lt, htab, upd_same]
  refine ⟨t, ?_, hblk.trans himg.symm, ⟨?_, ?_, ?_, ?_, fun b hb => ?_⟩, ?_, ⟨fun bn => ?_, ?_⟩,
    fun o => ?_, fun k f hk => ?_, fun i hi hc => ?_⟩
  · unfold finish
    rw [rinode_eq h.root.lt]
    simp only [Option.bind_eq_bind, Option.bind_some, hsize]
    change (winode m ROOTINO { m.dinode ROOTINO with size := UInt32.ofNat (rootSize files.length) }).bind
      _ = _
    rw [← hd, he, Option.bind_some, balloc, if_pos (Nat.lt_of_le_of_lt hf.fits (by decide)), ht]
  · rw [himg, u.blk_of_ne (by decide)]
    exact hf.super
  · rw [hblk]
    exact hf.owned.table_congr hdin
  · rw [ht]
    exact hf.start
  · rw [ht]
    exact hf.fits
  · have hb' : u.freeblock ≤ b := by rw [ht] at hb; exact hb
    have hlo : sb.bmapstart < nmeta := by decide
    have := hf.start
    rw [himg, u.blk_of_ne (by omega)]
    exact hf.zeros b hb'
  · rw [hself, hd, h.root.fields]
  · rw [hself, hblk, Dinode.block, Dinode.ptr_of_addrs haddrs, (hsame _ h.root.lt hlive).1,
      ← length_rootBytes]
    exact h.root.spans.data bn
  · rw [hself, show d.addr NDIRECT = (m.dinode ROOTINO).addr NDIRECT by rw [hd]; rfl,
      ← length_rootBytes]
    exact h.root.spans.indirect
  · rw [hself, hblk, Dinode.contents_of_addrs haddrs, (hsame _ h.root.lt hlive).2]
    exact h.root.contents o
  · have hg := h.file k f hk
    exact hg.keep (hkeep _ hg.lt (rootino_ne _).symm (by rw [hg.type_eq]; decide))
  · have hne : i ≠ ROOTINO := by simp only [ROOTINO]; omega
    rw [hdin i hi, htab, upd_ne _ _ hne]
    exact h.unused i hi hc

theorem main_spec (hr : Room files) (hall : ∀ f ∈ files, slash ∉ f.arg ∧ f.data.length ≤ MAXFILE * BSIZE) :
    ∃ m, main files = some m ∧ Finished m files := by
  obtain ⟨m₀, m₁, m₂, he₀, he₁, he₂, hb⟩ := start_spec
  obtain ⟨m₃, he₃, hb₃⟩ := files_spec files [] m₂ hb hr hall
  obtain ⟨m₄, he₄, hf⟩ := finish_spec hb₃
  refine ⟨m₄, ?_, hf⟩
  unfold main
  rw [he₀]
  simp only [Option.bind_eq_bind, Option.bind_some, if_true, he₁, he₂, he₃]
  exact he₄

theorem finished_of_main (hr : Room files) (he : main files = some m) : Finished m files := by
  obtain ⟨m₀, m₁, m₂, he₀, he₁, he₂, hb⟩ := start_spec
  have hall : ∀ f ∈ files, slash ∉ f.arg ∧ f.data.length ≤ MAXFILE * BSIZE := by
    have he' := he
    unfold main at he'
    rw [he₀] at he'
    simp only [Option.bind_eq_bind, Option.bind_some, if_true, he₁, he₂] at he'
    obtain ⟨m₃, he₃, _⟩ := Option.bind_eq_some_iff.mp he'
    exact files_le files [] m₂ hb hr he₃
  obtain ⟨m', he', hf⟩ := main_spec hr hall
  rw [he] at he'
  cases he'
  exact hf

/-! ## Holes -/

/-- Every block below the size of an inode is mapped. -/
def HoleFree (m : Mk) : Prop :=
  ∀ i < NINODES, (m.dinode i).type ≠ 0 →
    ∀ bn < ((m.dinode i).size.toNat + BSIZE - 1) / BSIZE, (m.dinode i).block m.img bn ≠ 0

theorem Finished.root_type (h : Finished m files) : (m.dinode ROOTINO).type = T_DIR := by rw [h.root]

theorem Finished.rootSize_eq (h : Finished m files) (hr : Room files) :
    (m.dinode ROOTINO).size.toNat = rootSize files.length := by
  have hlt : rootSize files.length < 2 ^ 32 := by
    have := hr.inodes
    simp only [rootSize, NINODES, DESIZE, DIRSIZ, BSIZE] at *
    omega
  rw [h.root]
  simpa using hlt

theorem Finished.root_hole_free (h : Finished m files) (hr : Room files) :
    (∀ bn < ((m.dinode ROOTINO).size.toNat + BSIZE - 1) / BSIZE,
      (m.dinode ROOTINO).block m.img bn ≠ 0) ↔ (files.length + 2) % (BSIZE / DESIZE) ≠ 0 := by
  rw [h.rootSize_eq hr, ← h.blk]
  simp only [h.rootSpans.data, rootSize, DESIZE, DIRSIZ, BSIZE]
  constructor
  · intro hall
    have := hall (16 * (files.length + 2) / 512) (by omega)
    omega
  · intro hne bn hbn
    omega

theorem Finished.file_hole_free (h : Finished m files) {i : Nat} (hi : i < NINODES)
    (hne : i ≠ ROOTINO) (ht : (m.dinode i).type ≠ 0) :
    ∀ bn < ((m.dinode i).size.toNat + BSIZE - 1) / BSIZE, (m.dinode i).block m.img bn ≠ 0 := by
  have hlive : ¬ (i = 0 ∨ files.length + 2 ≤ i) := fun hc => ht (by rw [h.unused i hi hc]; rfl)
  obtain ⟨k, rfl⟩ : ∃ k, i = k + 2 := ⟨i - 2, by simp only [ROOTINO] at hne; omega⟩
  have hk : k < files.length := by omega
  have hf := h.file k files[k] (List.getElem?_eq_getElem hk)
  intro bn hbn
  rw [← h.blk, hf.spans.data bn]
  rw [hf.size_eq] at hbn
  simp only [BSIZE] at *
  omega

/-- A successful run of `mkfs` leaves an image without holes exactly if the entries
of the root, with those for `.` and `..`, do not fill whole blocks. -/
theorem image_hole_free_iff (hn : files.length ≤ NINODES - 2) (hfit : blocksUsed files ≤ FSSIZE)
    (he : main files = some m) : HoleFree m ↔ (files.length + 2) % (BSIZE / DESIZE) ≠ 0 := by
  have hr : Room files := ⟨by simp only [NINODES] at *; omega, hfit⟩
  have h := finished_of_main hr he
  rw [← h.root_hole_free hr]
  constructor
  · intro hall
    exact hall ROOTINO (by decide) (by rw [h.root_type]; decide)
  · intro hroot i hi ht
    by_cases hne : i = ROOTINO
    · subst hne
      exact hroot
    · exact h.file_hole_free hi hne ht

/-- Empty files with the names `A`, `B`, and so on. -/
def emptyFiles (n : Nat) (hn : n ≤ 30) : List HostFile :=
  List.ofFn fun k : Fin n =>
    { arg := [UInt8.ofNat (65 + k.val)]
      reads := []
      arg_ne := by
        have h : ∀ k < 30, ∀ c ∈ [UInt8.ofNat (65 + k)], c ≠ 0 := by
          decide +kernel
        exact h k.val (by omega)
      read_len := fun r hr => absurd hr List.not_mem_nil }

theorem image_hole_free_iff_oneFile : ∃ m, main (emptyFiles 1 (by decide)) = some m ∧ HoleFree m := by
  have hr : Room (emptyFiles 1 (by decide)) := ⟨by decide, by decide⟩
  obtain ⟨m, he, -⟩ := main_spec hr (by decide)
  exact ⟨m, he, (image_hole_free_iff (by decide) hr.blocks he).mpr (by decide)⟩

/-- With thirty files the root has a hole. -/
theorem image_hole_thirtyFiles : (emptyFiles 30 (by decide)).Pairwise (·.arg ≠ ·.arg) ∧
    ∃ m, main (emptyFiles 30 (by decide)) = some m ∧ ¬ HoleFree m := by
  have hr : Room (emptyFiles 30 (by decide)) := ⟨by decide, by decide⟩
  obtain ⟨m, he, h⟩ := main_spec hr (by decide)
  refine ⟨by decide, m, he, fun hall => ?_⟩
  have hroot := (h.root_hole_free hr).mp (hall ROOTINO (by decide) (by rw [h.root_type]; decide))
  exact hroot (by decide)

end Xv6.Mkfs
