import Xv6.Fs.Tiny

/-!
# Calls that fail

A call that returns -1 should leave everything as it was. `Fs.Unchanged` is what
the other calls can see: the nodes, the descriptors, directories and open files of
the processes, and the reference counts of the inode cache. `open` can break it:
the file it was asked to make is there before it finds that the process has no
descriptor, or the system no file, left.
-/

namespace Xv6

open Hoare Table

variable {g : View} {s t : Fs}

/-- A state between two calls, with a process about to make one: every inode
without links is in use, and no link count is negative. -/
structure Fs.Fine (s : Fs) : Prop where
  sound : s.Sound
  settled : s.view.Settled
  nonNeg : s.view.NonNeg
  live : (s.proc s.cur).live = true

theorem Fs.Fine.idle (h : s.Fine) : s.view.Idle := ⟨h.sound.rest, h.live⟩

/-- Nothing that a call can see differs. -/
structure Fs.Unchanged (s t : Fs) : Prop where
  node : t.node = s.node
  user : s.user.Same t.user
  ref : ∀ k, (t.icache k).ref = (s.icache k).ref
  inum : ∀ k, 0 < (s.icache k).ref → (t.icache k).inum = (s.icache k).inum

theorem User.Same.holds_eq {u u' : User} (h : u.Same u') (k : Fin NINODE) : u'.holds k = u.holds k := by
  have hopen : ∀ f, (u'.ftable f).OpenOn k ↔ (u.ftable f).OpenOn k := by
    intro f
    by_cases h0 : (u.ftable f).ref = 0
    · exact ⟨fun hc => absurd hc.1 (by rw [h.ref f, h0]; decide),
        fun hc => absurd hc.1 (by rw [h0]; decide)⟩
    · rw [h.file f h0]
  unfold User.holds
  simp only [hopen, h.proc]

theorem Inv.ref_eq_holds (h : Inv g s) (hr : g.Rest) (k : Fin NINODE) :
    (s.icache k).ref = g.user.holds k := by
  rw [h.cache.ref_eq k, hr.refs, hr.owner]
  rfl

theorem Fs.Unchanged.of_view (hs : s.Sound) {g' : View} (ht : Inv g' t) (hr : g'.Rest)
    (hnode : g'.node = s.node) (hinum : g'.inum = s.view.inum) (hsame : s.user.Same g'.user) :
    s.Unchanged t := by
  have href : ∀ k, (t.icache k).ref = (s.icache k).ref := fun k => by
    rw [ht.ref_eq_holds hr, hs.inv.ref_eq_holds hs.rest, hsame.holds_eq]
    rfl
  refine ⟨ht.node_eq.symm.trans hnode, ht.user.symm ▸ hsame, href, fun k hk => ?_⟩
  have hheld : 0 < g'.owner.holds k := by
    rw [hr.owner, ← ht.ref_eq_holds hr, href]
    exact hk
  rw [(ht.cache.held k hheld).1, hinum]
  rfl

theorem Created.new {path : List UInt8} {node : Nat → Node} {i : Nat}
    (h : Created g path T_FILE 0 0 node i) (hm : g.Missing path) :
    (g.node i).type = 0 ∧ (node i).type = T_FILE := by
  cases h with
  | found hd hfind _ => exact absurd hm (View.not_missing hd hfind)
  | @made d i x hd hfind hal hi0 hi hfree =>
    have hne : i ≠ d := by
      rintro rfl
      exact absurd (hfree.symm.trans (resolve_dir _ _ _ hd)) (by decide)
    refine ⟨hfree, ?_⟩
    change (upd (upd g.node i _) d _ i).type = T_FILE
    rw [upd_ne _ _ hne, upd_same, newNode_type]

/-- A call of `open` that fails changes nothing exactly if it made no file: it was
not asked to make one, or the path names something already, or its directory is
not there. -/
theorem open_failed_unchanged (hs : s.Fine) {path : Option (List UInt8)} {omode : Nat}
    (hfail : sysOpen path omode s = .ok (-1, t)) : s.Unchanged t ↔ ¬ s.view.Creates path omode := by
  obtain ⟨g', ht, hr, -, -, hpost⟩ := wp_ok (sysOpen_spec hs.sound.inv hs.idle path omode) hfail
  obtain ⟨⟨heff, hsame⟩, -⟩ := hpost hs.settled hs.nonNeg
  obtain ⟨hinum, huser⟩ := hsame rfl
  constructor
  · intro hun
    rcases heff with ⟨-, hno⟩ | ⟨-, p, i, -, hm, hc⟩
    · exact hno
    · obtain ⟨h0, h1⟩ := hc.new hm
      have hnode : g'.node = s.view.node := ht.node_eq.trans hun.node
      rw [hnode, h0] at h1
      exact absurd h1 (by decide)
  · intro hno
    rcases heff with ⟨hnode, -⟩ | ⟨hc, -⟩
    · exact .of_view hs.sound ht hr hnode hinum huser
    · exact absurd hc hno

/-! ## A process without descriptors -/

namespace Tiny

/-- No inode of the small disk is without links. -/
def linked (s : Fs) : Bool :=
  decide (s.sb = sb) && decide ((s.proc s.cur).live = true) &&
    decide (∀ i < sb.ninodes, 0 ≤ (s.node i).nlink ∧ ((s.node i).type ≠ 0 → (s.node i).nlink ≠ 0))

theorem fine_of_linked (hs : s.Sound) (h : linked s = true) : s.Fine := by
  unfold linked at h
  simp only [Bool.and_eq_true, decide_eq_true_iff] at h
  obtain ⟨⟨hsb, hlive⟩, hall⟩ := h
  rw [← hsb] at hall
  exact ⟨hs, fun i hi hty h0 => absurd h0 ((hall i hi).2 hty), fun i hi => (hall i hi).1, hlive⟩

/-- The process opens the root, and duplicates the descriptor until it has no
other left. -/
def takeAll : List Event := ⟨0, .open (some [slash]) O_RDONLY⟩ :: List.replicate 15 ⟨0, .dup 0⟩

def x : List UInt8 := [120]

/-- The process has no descriptor left. `open` of a new file returns -1, and the
file is there. -/
theorem open_leaves_file : ∃ s t, Trans.run Fs.step start takeAll = some s ∧ s.Fine ∧
    sysOpen (some x) O_CREATE s = .ok (-1, t) ∧ ¬ s.Unchanged t ∧
    (s.node 2).type = 0 ∧ (t.node 2).type = T_FILE ∧
    (s.node ROOTINO).find x = none ∧ (t.node ROOTINO).find x = some 2 := by
  obtain ⟨s, hrun, hs, hp⟩ := @exists_of_reaches takeAll
    (fun s => linked s && returns (sysOpen (some x) O_CREATE) (fun r t => decide (r = -1 ∧
      (s.node 2).type = 0 ∧ (t.node 2).type = T_FILE ∧ (s.node ROOTINO).find x = none ∧
      (t.node ROOTINO).find x = some 2)) s) (by decide +kernel)
  rw [Bool.and_eq_true] at hp
  obtain ⟨r, t, hopen, ht⟩ := exists_of_returns hp.2
  obtain ⟨rfl, h0, h1, h2, h3⟩ := of_decide_eq_true ht
  refine ⟨s, t, hrun, fine_of_linked hs hp.1, hopen, fun hun => ?_, h0, h1, h2, h3⟩
  rw [hun.node, h0] at h1
  exact absurd h1 (by decide)

/-- Opening a file that is not there changes nothing. -/
theorem open_failed_unchanged_missing : ∃ s t, s.Fine ∧ sysOpen (some x) O_RDONLY s = .ok (-1, t) ∧
    (s.Unchanged t ↔ ¬ s.view.Creates (some x) O_RDONLY) := by
  obtain ⟨s, -, hs, hp⟩ := @exists_of_reaches takeAll
    (fun s => linked s && returns (sysOpen (some x) O_RDONLY) (fun r _ => decide (r = -1)) s)
    (by decide +kernel)
  rw [Bool.and_eq_true] at hp
  obtain ⟨r, t, hopen, ht⟩ := exists_of_returns hp.2
  obtain rfl := of_decide_eq_true ht
  have hfine := fine_of_linked hs hp.1
  exact ⟨s, t, hfine, hopen, open_failed_unchanged hfine hopen⟩

end Tiny

end Xv6
