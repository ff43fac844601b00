import Xv6.Fs.Runs
import Xv6.Mkfs.Lookup

/-!
# Booting from what `mkfs` wrote

An image of `mkfs` without a hole is one the kernel can boot from.
-/

namespace Xv6.Mkfs

open Table Bytes Trans

variable {m : Mk} {files : List HostFile}

theorem noHoles_of_blocks {blk : Nat → Block} {d : Dinode} (hmax : d.size.toNat ≤ MAXFILE * BSIZE)
    (h : ∀ bn < (d.size.toNat + BSIZE - 1) / BSIZE, d.block blk bn ≠ 0) : NoHoles blk d := by
  refine ⟨hmax, fun o ho => h _ ?_⟩
  simp only [BSIZE] at *
  omega

theorem Finished.size_le (h : Finished m files) (hr : Room files) {i : Nat} (hi : i < NINODES)
    (ht : (m.dinode i).type ≠ 0) : (m.dinode i).size.toNat ≤ MAXFILE * BSIZE := by
  have hroom := hr.inodes
  by_cases hroot : i = ROOTINO
  · rw [hroot, h.rootSize_eq hr]
    simp only [rootSize, NINODES, MAXFILE, NDIRECT, NINDIRECT, DESIZE, DIRSIZ, BSIZE] at *
    omega
  · have hlive : ¬ (i = 0 ∨ files.length + 2 ≤ i) := fun hc => ht (by rw [h.unused i hi hc]; rfl)
    obtain ⟨k, rfl⟩ : ∃ k, i = k + 2 := ⟨i - 2, by simp only [ROOTINO] at hroot; omega⟩
    have hk : k < files.length := by omega
    have hf := h.file k files[k] (List.getElem?_eq_getElem hk)
    rw [hf.size_eq]
    exact hf.fits

theorem Finished.eq_root (h : Finished m files) {i : Nat} (hi : i < NINODES)
    (ht : (m.dinode i).type = T_DIR) : i = ROOTINO := by
  by_contra hroot
  by_cases hlive : i = 0 ∨ files.length + 2 ≤ i
  · rw [h.unused i hi hlive] at ht
    exact absurd ht (by decide)
  · obtain ⟨k, rfl⟩ : ∃ k, i = k + 2 := ⟨i - 2, by simp only [ROOTINO] at hroot; omega⟩
    have hk : k < files.length := by omega
    rw [(h.file k files[k] (List.getElem?_eq_getElem hk)).type_eq] at ht
    exact absurd ht (by decide)

theorem rootEntries_inum {e : Nat} {q : Nat × List UInt8} (he : (rootEntries files)[e]? = some q) :
    q.1 < files.length + 2 := by
  have hmem := List.mem_of_getElem? he
  simp only [rootEntries, List.mem_cons, List.mem_map] at hmem
  rcases hmem with rfl | rfl | ⟨⟨f, k⟩, hk, rfl⟩
  · simp only [ROOTINO]
    omega
  · simp only [ROOTINO]
    omega
  · have := (List.mk_mem_zipIdx_iff_le_and_getElem?_sub.mp hk)
    have := (List.getElem?_eq_some_iff.mp this.2).1
    dsimp only
    omega

theorem Finished.entries (h : Finished m files) (hr : Room files) :
    (absNode m.img (m.dinode ROOTINO)).EntriesIn NINODES := by
  intro e he h0
  have hsize : (absNode m.img (m.dinode ROOTINO)).size = (m.dinode ROOTINO).size.toNat := rfl
  have hdata : ∀ j < DESIZE, (absNode m.img (m.dinode ROOTINO)).data (DESIZE * e + j) =
      (rootBytes files).getD (DESIZE * e + j) 0 := by
    intro j hj
    rw [← h.rootContents, h.blk]
    refine if_pos ⟨?_, ?_, by omega⟩
    · rw [h.root_type]
      decide
    · rw [h.root_type]
      decide
  have hbytes : (List.range DESIZE).map (fun j =>
      (absNode m.img (m.dinode ROOTINO)).data (DESIZE * e + j)) =
        (List.range DESIZE).map fun j => (rootBytes files).getD (DESIZE * e + j) 0 :=
    List.map_congr_left fun j hj => hdata j (List.mem_range.mp hj)
  rw [Node.ent, hbytes] at h0 ⊢
  by_cases hlt : e < (rootEntries files).length
  · have hq := List.getElem?_eq_getElem hlt
    have hent : (List.range DESIZE).map (fun j => (rootBytes files).getD (DESIZE * e + j) 0) =
        entry (rootEntries files)[e].1 (rootEntries files)[e].2 := by
      refine List.ext_getElem (by simp [length_entry]) fun j h1 h2 => ?_
      rw [length_entry] at h2
      rw [List.getElem_map, List.getElem_range, rootBytes,
        getD_flatMap_const (g := fun e : Nat × List UInt8 => entry e.1 e.2)
          (fun _ => length_entry _ _) hq h2, List.getD_eq_getElem _ _ (by rwa [length_entry])]
    rw [hent, entry, ofBytes_bytes_strncpy]
    have := rootEntries_inum hq
    have := hr.inodes
    dsimp only
    exact Nat.lt_of_le_of_lt (Nat.mod_le _ _) (by omega)
  · refine absurd ?_ h0
    have hzero : (List.range DESIZE).map (fun j => (rootBytes files).getD (DESIZE * e + j) 0) =
        List.replicate DESIZE 0 := by
      refine List.ext_getElem (by simp) fun j h1 h2 => ?_
      rw [List.getElem_map, List.getElem_range, List.getElem_replicate, List.getD_eq_default]
      rw [length_rootBytes]
      rw [length_rootEntries] at hlt
      simp only [DESIZE, DIRSIZ] at *
      omega
    rw [hzero]
    decide

theorem Finished.image (h : Finished m files) (hr : Room files)
    (hne : (files.length + 2) % (BSIZE / DESIZE) ≠ 0) : Image sb m.img := by
  have hinode : sb.inode m.img = m.dinode := rfl
  have hroot : (m.dinode ROOTINO).nlink = 1 := by rw [h.root]
  refine ⟨sb_geom, ?_, fun i hi ht _ => ?_, fun i hi ht => ?_, ?_⟩
  · rw [hinode, ← h.blk]
    exact h.filling.owned.exactBlocks sb_geom
  · refine noHoles_of_blocks (h.size_le hr hi ht) ?_
    by_cases hi0 : i = ROOTINO
    · rw [hi0]
      exact (h.root_hole_free hr).mpr hne
    · exact h.file_hole_free hi hi0 ht
  · rw [h.eq_root hi ht]
    exact h.entries hr
  · rw [hinode, h.root_type, hroot]
    exact ⟨by decide, by decide⟩

theorem main_image (hr : Room files) (hall : ∀ f ∈ files, slash ∉ f.arg ∧ f.data.length ≤ MAXFILE * BSIZE)
    (hne : (files.length + 2) % (BSIZE / DESIZE) ≠ 0) :
    ∃ m, main files = some m ∧ Finished m files ∧ Image sb m.img := by
  obtain ⟨m, he, h⟩ := main_spec hr hall
  exact ⟨m, he, h, h.image hr hne⟩

def firstCalls : List Event := [⟨0, .fork 1⟩, ⟨1, .close 0⟩]

theorem blocks_owned_exactly_oneFile : ∃ m t, main (emptyFiles 1 (by decide)) = some m ∧
    run Fs.step (boot sb m.img) firstCalls = some t ∧ ExactBlocks t.sb t.blk t.dinode := by
  obtain ⟨m, he, -, himg⟩ := @main_image (emptyFiles 1 (by decide))
    ⟨by decide, by decide⟩ (by decide) (by decide)
  exact ⟨m, _, he, rfl, (@blocks_owned_exactly _ _ _ himg firstCalls rfl).1⟩

theorem no_holes_oneFile : ∃ m t, main (emptyFiles 1 (by decide)) = some m ∧
    run Fs.step (boot sb m.img) firstCalls = some t ∧ (t.dinode ROOTINO).type = T_DIR ∧
    (t.dinode ROOTINO).size.toNat ≤ MAXFILE * BSIZE := by
  obtain ⟨m, he, h, himg⟩ := @main_image (emptyFiles 1 (by decide))
    ⟨by decide, by decide⟩ (by decide) (by decide)
  have htype : (m.dinode ROOTINO).type = T_DIR := h.root_type
  have hlt : ROOTINO < sb.ninodes := by decide
  exact ⟨m, _, he, rfl, htype, (@no_holes _ _ _ himg firstCalls rfl ROOTINO hlt (.inr htype)).1⟩

end Xv6.Mkfs
