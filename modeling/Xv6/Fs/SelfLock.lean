import Xv6.Fs.Failed

/-!
# Calls that wait for themselves

A process that runs alone can wait only for a lock it holds itself. On a well-formed
file system `link` is the only call that does: when the new name is there already,
`dirlink` gives the inode of the name back with `iput`, which takes its lock, and for a
name of the directory itself that is the lock `link` has.
-/

namespace Xv6

open Hoare Table

variable {s t : Fs}

def Call.isPath : Call → Bool
  | .open _ _ | .mkdir _ | .mknod _ _ _ | .link _ _ | .unlink _ | .chdir _ | .exec _ _ => true
  | _ => false

/-- The call makes a link whose new name is one of the directory it is in. -/
def Call.SelfLinks (g : View) : Call → Prop
  | .link old new => SelfLink g old new
  | _ => False

/-- Blocks, inodes, cache entries or the room in the log ran out, or the directory
is as large as a file can be. -/
def Stop.Short (e : Stop) : Prop := e.scarce ∨ e = .panic .dirlink

theorem CallStop.short {g : View} {e : Stop} (h : CallStop g e) (hwf : g.Wf) : e.Short := by
  rcases h with h | h | ⟨-, h⟩
  · exact .inl h
  · exact .inr h
  · exact absurd hwf h

/-- A call that follows a path stops for want of something, or because it waits for
itself. -/
theorem Call.Stops.short_or {g : View} {c : Call} {e : Stop} (h : c.Stops g e) (hwf : g.Wf)
    (hpath : c.isPath = true) : e.Short ∨ e = .asleep ∧ c.SelfLinks g := by
  cases c with
  | link old new => exact h.imp (·.short hwf) id
  | «open» | mkdir | mknod | unlink | chdir | exec => exact .inl (CallStop.short h hwf)
  | _ => cases hpath

/-- A call that follows a path, run alone, never waits for a lock it holds, and returns
with its transaction closed, exactly if it is not a link to a name of the directory
itself. -/
theorem path_call_returns_iff (hs : s.Fine) (hwf : s.view.Wf) {c : Call} (hpath : c.isPath = true)
    (hshort : ∀ e, c.run s = .error e → ¬ e.Short) :
    (c.run s ≠ .error .asleep ∧ ∃ r t, c.run s = .ok (r, t) ∧ t.log.outstanding = 0) ↔
      ¬ c.SelfLinks s.view := by
  have hspec := call_spec hs.sound.inv hs.idle c fun child hc => by
    rw [hc] at hpath
    cases hpath
  constructor
  · rintro ⟨-, r, t, hrun, -⟩
    obtain ⟨g', -, -, -, -, hpost⟩ := wp_ok hspec hrun
    obtain ⟨heff, -⟩ := hpost hs.settled hs.nonNeg
    cases c with
    | link old new => exact heff.2
    | _ => exact id
  · intro hno
    have hwf' : View.Wf { s.view with op := true } :=
      ⟨hwf.settled, hwf.noDangling, hwf.aligned, hwf.root, hwf.named⟩
    cases hrun : c.run s with
    | error e =>
      rcases (wp_error hspec hrun).short_or hwf' hpath with hsh | ⟨-, hself⟩
      · exact absurd hsh (hshort e hrun)
      · cases c with
        | link old new => exact absurd hself hno
        | _ => cases hself
    | ok q =>
      obtain ⟨g', ht, hr, -⟩ := wp_ok hspec hrun
      exact ⟨fun hc => (by cases hc), q.1, q.2, rfl, (ht.log.idle hr.op).1⟩

namespace Tiny

/-- The entry is for an inode, and not for the directory it is in unless by its name. -/
def entryTidy (s : Fs) (i : Nat) (d : Dirent) : Bool :=
  decide (d.inum ≠ 0 → (s.node d.inum).type ≠ 0 ∧
    (¬ namecmp d.name dot = true → ¬ namecmp d.name dotdot = true →
      d.inum ≠ i ∧ 1 ≤ (s.node d.inum).nlink))

/-- The file system on the small disk is well formed. -/
def tidy (s : Fs) : Bool :=
  linked s && decide (∀ i < sb.ninodes, (s.node i).type = T_DIR → (s.node i).size % DESIZE = 0 ∧
    ∀ e < (s.node i).size / DESIZE, entryTidy s i ((s.node i).ent e) = true) &&
    decide ((s.node ROOTINO).type ≠ 0)

theorem wf_of_tidy (hs : s.Sound) (h : tidy s = true) : s.Fine ∧ s.view.Wf := by
  unfold tidy at h
  simp only [Bool.and_eq_true, decide_eq_true_iff] at h
  obtain ⟨⟨hl, hall⟩, hroot⟩ := h
  have hfine := fine_of_linked hs hl
  have hsb : s.sb = sb := by
    unfold linked at hl
    simp only [Bool.and_eq_true, decide_eq_true_iff] at hl
    exact hl.1.1
  rw [← hsb] at hall
  refine ⟨hfine, hfine.settled, fun i hi hd e he h0 => ?_, fun i hi hd => (hall i hi hd).1, hroot,
    fun i hi hd e he h0 => ?_⟩
  · exact (of_decide_eq_true ((hall i hi hd).2 e he) h0).1
  · have := (of_decide_eq_true ((hall i hi hd).2 e he) h0).2
    rwa [namecmp_iff, namecmp_iff] at this

/-- The process makes the file `x`. -/
def makeX : List Event := [⟨0, .open (some x) O_CREATE⟩]

/-- The call waits for a lock. -/
def sleeps (c : Call) (s : Fs) : Bool :=
  match c.run s with
  | .error .asleep => true
  | _ => false

/-- `link("x", ".")` never returns. -/
theorem link_waits_for_itself : ∃ s, Trans.run Fs.step start makeX = some s ∧ s.Fine ∧ s.view.Wf ∧
    (Call.link (some x) (some dot)).run s = .error .asleep := by
  obtain ⟨s, hrun, hs, hp⟩ := @exists_of_reaches makeX
    (fun s => tidy s && sleeps (.link (some x) (some dot)) s) (by decide +kernel)
  rw [Bool.and_eq_true] at hp
  obtain ⟨hfine, hwf⟩ := wf_of_tidy hs hp.1
  refine ⟨s, hrun, hfine, hwf, ?_⟩
  have hsl := hp.2
  unfold sleeps at hsl
  split at hsl
  next hx => exact hx
  next => cases hsl

/-- `link("x", "y")` returns. -/
theorem path_call_returns_iff_other : ∃ s r t, s.Fine ∧ s.view.Wf ∧
    (Call.link (some x) (some [121])).run s = .ok (r, t) ∧
    (((Call.link (some x) (some [121])).run s ≠ .error .asleep ∧
      ∃ r t, (Call.link (some x) (some [121])).run s = .ok (r, t) ∧ t.log.outstanding = 0) ↔
      ¬ (Call.link (some x) (some [121])).SelfLinks s.view) := by
  obtain ⟨s, -, hs, hp⟩ := @exists_of_reaches makeX
    (fun s => tidy s && returns (Call.link (some x) (some [121])).run (fun _ _ => true) s)
    (by decide +kernel)
  rw [Bool.and_eq_true] at hp
  obtain ⟨hfine, hwf⟩ := wf_of_tidy hs hp.1
  obtain ⟨r, t, hret, -⟩ := exists_of_returns hp.2
  exact ⟨s, r, t, hfine, hwf, hret, path_call_returns_iff hfine hwf rfl fun e he => by
    rw [hret] at he
    cases he⟩

end Tiny

end Xv6
