import Xv6.Vm.Basic

/-!
# Counting frames

How often a frame is used by a page directory: as the directory itself, as one of its page
tables, and by their entries. `Balance` says that every frame from `lo` to `hi` is at one
place, in the free list or among those that are counted, and that no other frame is
anywhere. The functions of `vm.c` keep it, whether they succeed or run out of memory, and
`kfree()` is never called with a frame that it panics on.
-/

namespace Xv6.Vm

open Table

def one (g f : Frame) : Nat := if f = g then 1 else 0

def pteCount : Option Pte → Frame → Nat
  | none, _ => 0
  | some e, f => one e.frame f

def tabCount : Option Pgtab → Frame → Nat
  | none, _ => 0
  | some t, f => one t.frame f + ∑ j ∈ Finset.range NPTENTRIES, pteCount (t.pte j) f

theorem pteCount_none (f : Frame) : pteCount none f = 0 := rfl

theorem pteCount_some (e : Pte) (f : Frame) : pteCount (some e) f = one e.frame f := rfl

theorem tabCount_none (f : Frame) : tabCount none f = 0 := rfl

theorem tabCount_some (t : Pgtab) (f : Frame) : tabCount (some t) f =
    one t.frame f + ∑ j ∈ Finset.range NPTENTRIES, pteCount (t.pte j) f := rfl

/-- The uses of a frame by a page directory. -/
def Pgdir.count (d : Pgdir) (f : Frame) : Nat :=
  one d.frame f + ∑ i ∈ Finset.range NPTENTRIES, tabCount (d.pde i) f

/-- The uses of a frame by a page directory that may not be there. -/
def dirCount : Option Pgdir → Frame → Nat
  | none, _ => 0
  | some d, f => d.count f

theorem dirCount_none (f : Frame) : dirCount none f = 0 := rfl

theorem dirCount_some (d : Pgdir) (f : Frame) : dirCount (some d) f = d.count f := rfl

variable {d d' : Pgdir} {p q : Nat} {f g : Frame}

theorem lt_entries (hp : p < NPTENTRIES * NPTENTRIES) :
    p / NPTENTRIES ∈ Finset.range NPTENTRIES ∧ p % NPTENTRIES ∈ Finset.range NPTENTRIES := by
  simp only [Finset.mem_range, NPTENTRIES] at *
  omega

theorem count_setPte (hp : p < NPTENTRIES * NPTENTRIES) (hpde : d.pde (p / NPTENTRIES) ≠ none)
    (e : Option Pte) (f : Frame) :
    (d.setPte p e).count f + pteCount (d.pte p) f = d.count f + pteCount e f := by
  obtain ⟨hi, hj⟩ := lt_entries hp
  obtain ⟨t, ht⟩ := Option.ne_none_iff_exists'.mp hpde
  have hdir := sum_upd (fun o => tabCount o f) d.pde
    (some { t with pte := upd t.pte (p % NPTENTRIES) e }) hi
  have htab := sum_upd (fun o => pteCount o f) t.pte e hj
  rw [ht, tabCount_some, tabCount_some] at hdir
  dsimp only at hdir
  simp only [Pgdir.count, Pgdir.setPte, Pgdir.pte, ht, Option.map_some, Option.bind_some]
  omega

theorem count_newTable (hp : p < NPTENTRIES * NPTENTRIES) (hpde : d.pde (p / NPTENTRIES) = none)
    (g f : Frame) :
    ({ d with pde := upd d.pde (p / NPTENTRIES) (some ⟨g, fun _ => none⟩) } : Pgdir).count f =
      d.count f + one g f := by
  have hdir := sum_upd (fun o => tabCount o f) d.pde (some ⟨g, fun _ => none⟩) (lt_entries hp).1
  rw [hpde, tabCount_none, tabCount_some] at hdir
  simp only [pteCount_none, Finset.sum_const_zero, Nat.add_zero] at hdir
  simp only [Pgdir.count]
  omega

/-! ## The allocator -/

/-- The free list, and whether `kfree()` has panicked. -/
structure Free where
  list : List Frame
  panicked : Bool

/-- The allocator of the frames from `lo` to `hi`. -/
def kmem (lo hi : Nat) : Kmem Free where
  kalloc s :=
    match s.list with
    | [] => (none, s)
    | f :: l => (some f, { s with list := l })
  kfree f s := ⟨f :: s.list, s.panicked || !decide (lo ≤ f.val ∧ f.val < hi)⟩

/-- Every frame from `lo` to `hi` is at one place, in the free list or among those counted by
`c`. -/
structure Balance (lo hi : Nat) (s : Free) (c : Frame → Nat) : Prop where
  quiet : s.panicked = false
  once : ∀ f, s.list.count f + c f = if lo ≤ f.val ∧ f.val < hi then 1 else 0

variable {lo hi : Nat} {s s' : Free} {c c' e : Frame → Nat}

theorem count_cons_one (g : Frame) (l : List Frame) (f : Frame) :
    (g :: l).count f = l.count f + one g f := by
  rw [List.count_cons, one]
  by_cases h : f = g
  · simp [h]
  · rw [if_neg h, if_neg (by rw [beq_iff_eq]; exact Ne.symm h)]

namespace Balance

theorem congr (h : Balance lo hi s c) (hc : ∀ f, c' f = c f) : Balance lo hi s c' :=
  ⟨h.quiet, fun f => by rw [hc, h.once]⟩

theorem kalloc_none (h : Balance lo hi s c) (hk : (kmem lo hi).kalloc s = (none, s')) :
    Balance lo hi s' c := by
  simp only [kmem] at hk
  split at hk
  · cases hk
    exact h
  · cases hk

theorem kalloc_some (h : Balance lo hi s c) (hk : (kmem lo hi).kalloc s = (some g, s')) :
    Balance lo hi s' fun f => c f + one g f := by
  simp only [kmem] at hk
  split at hk
  · cases hk
  · rename_i l hl
    cases hk
    refine ⟨h.quiet, fun f => ?_⟩
    have := h.once f
    rw [hl, count_cons_one] at this
    dsimp only
    omega

theorem kfree (h : Balance lo hi s fun f => c f + one g f) : Balance lo hi ((kmem lo hi).kfree g s) c := by
  have hg := h.once g
  rw [one, if_pos rfl] at hg
  have hrange : lo ≤ g.val ∧ g.val < hi := by
    by_contra hc
    rw [if_neg hc] at hg
    omega
  refine ⟨?_, fun f => ?_⟩
  · simp only [kmem, h.quiet, hrange, and_self, decide_true, Bool.not_true, Bool.or_false]
  · have := h.once f
    rw [kmem, count_cons_one]
    omega

end Balance

/-! ## The functions of `vm.c` -/

variable {o : Option Pgdir}

theorem walkpgdir_balance (h : Balance lo hi s fun f => d.count f + e f) (hp : p < NPTENTRIES * NPTENTRIES)
    (hw : walkpgdir (kmem lo hi) d p s = (o, s')) : Balance lo hi s' fun f => (o.getD d).count f + e f := by
  unfold walkpgdir at hw
  split at hw
  · cases hw
    exact h
  · rename_i hnone
    split at hw
    · rename_i s₁ hk
      cases hw
      exact h.kalloc_none hk
    · rename_i g s₁ hk
      cases hw
      refine (h.kalloc_some hk).congr fun f => ?_
      rw [Option.getD_some, count_newTable hp hnone]
      omega

theorem mappages_balance {user b : Bool} (h : Balance lo hi s fun f => d.count f + one g f + e f)
    (hp : p < NPTENTRIES * NPTENTRIES) (hm : mappages (kmem lo hi) d p g user s = .ok (b, d', s')) :
    Balance lo hi s' fun f => d'.count f + (if b then 0 else one g f) + e f := by
  unfold mappages at hm
  split at hm
  · rename_i s₁ hw
    cases hm
    have := walkpgdir_balance (e := fun f => one g f + e f) (h.congr fun f => by omega) hp hw
    refine this.congr fun f => ?_
    simp only [Option.getD_none, Bool.false_eq_true, if_false]
    omega
  · rename_i d₁ s₁ hw
    have hbal := walkpgdir_balance (e := fun f => one g f + e f) (h.congr fun f => by omega) hp hw
    split at hm
    · cases hm
    · rename_i hnone
      cases hm
      refine hbal.congr fun f => ?_
      have hcount := count_setPte hp (walkpgdir_some hw).1 (some ⟨g, user⟩) f
      rw [Option.not_isSome_iff_eq_none.mp hnone] at hcount
      simp only [pteCount_none, pteCount_some, Option.getD_some, if_true] at hcount ⊢
      omega

theorem deallocLoop_balance :
    ∀ (m p stop : Nat) (d : Pgdir) (s : Free), Balance lo hi s (fun f => d.count f + e f) →
      stop ≤ NPTENTRIES * NPTENTRIES → deallocLoop (kmem lo hi) m p stop d s = .ok (d', s') →
      Balance lo hi s' fun f => d'.count f + e f
  | 0, p, stop, d, s, h, _, hd => by
    cases hd
    exact h
  | m + 1, p, stop, d, s, h, hstop, hd => by
    rw [deallocLoop] at hd
    split at hd
    · rename_i hp
      split at hd
      · exact deallocLoop_balance m _ stop d s h hstop hd
      · rename_i t ht
        split at hd
        · exact deallocLoop_balance m _ stop d s h hstop hd
        · rename_i x hx
          split at hd
          · cases hd
          · refine deallocLoop_balance m _ stop _ _ (Balance.kfree (h.congr fun f => ?_)) hstop hd
            have hpde : d.pde (p / NPTENTRIES) ≠ none := by rw [ht]; rintro ⟨⟩
            have hcount := count_setPte (by omega) hpde none f
            have hpte : d.pte p = some x := by rw [Pgdir.pte, ht]; exact hx
            rw [hpte] at hcount
            simp only [pteCount_none, pteCount_some] at hcount
            omega
    · cases hd
      exact h

theorem pages_le_nupage {sz : Nat} (h : sz ≤ KERNBASE) : pages sz ≤ NUPAGE := by
  simp only [pages, PGSIZE, KERNBASE, NUPAGE] at *
  omega

theorem nupage_le : NUPAGE ≤ NPTENTRIES * NPTENTRIES := by decide

variable {oldsz newsz ret : Nat}

theorem deallocuvm_balance (h : Balance lo hi s fun f => d.count f + e f)
    (hsz : oldsz ≤ KERNBASE) (hd : deallocuvm (kmem lo hi) d oldsz newsz s = .ok (ret, d', s')) :
    Balance lo hi s' fun f => d'.count f + e f := by
  unfold deallocuvm at hd
  split at hd
  · cases hd
    exact h
  · cases hl : deallocLoop (kmem lo hi) (pages oldsz - pages newsz) (pages newsz) (pages oldsz) d s with
    | error x =>
      rw [hl] at hd
      cases hd
    | ok x =>
      rw [hl] at hd
      cases hd
      exact deallocLoop_balance _ _ _ d s h ((pages_le_nupage hsz).trans nupage_le) hl

/-- The frame that the loop of `allocuvm` is left with. -/
def AllocEnd.held : AllocEnd → Frame → Nat
  | .done, _ => 0
  | .outOfMemory, _ => 0
  | .outOfMemory2 mem, f => one mem f

theorem allocLoop_balance : ∀ (m p : Nat) (d : Pgdir) (s : Free) {ret : AllocEnd},
      Balance lo hi s (fun f => d.count f + e f) → p + m ≤ NPTENTRIES * NPTENTRIES →
      allocLoop (kmem lo hi) m p d s = .ok (ret, d', s') →
      Balance lo hi s' fun f => d'.count f + ret.held f + e f
  | 0, p, d, s, ret, h, _, ha => by
    cases ha
    exact h.congr fun f => by rw [AllocEnd.held, Nat.add_zero]
  | m + 1, p, d, s, ret, h, hp, ha => by
    rw [allocLoop] at ha
    split at ha
    · rename_i s₁ hk
      cases ha
      exact (h.kalloc_none hk).congr fun f => by rw [AllocEnd.held, Nat.add_zero]
    · rename_i mem s₁ hk
      have hmem : Balance lo hi s₁ fun f => d.count f + one mem f + e f :=
        (h.kalloc_some hk).congr fun f => by omega
      split at ha
      · cases ha
      · rename_i d₁ s₂ hm
        cases ha
        refine (mappages_balance hmem (by omega) hm).congr fun f => ?_
        rw [AllocEnd.held, if_neg Bool.false_ne_true]
      · rename_i d₁ s₂ hm
        refine allocLoop_balance m (p + 1) d₁ s₂ ?_ (by omega) ha
        refine (mappages_balance hmem (by omega) hm).congr fun f => ?_
        rw [if_pos rfl, Nat.add_zero]

theorem allocuvm_balance (h : Balance lo hi s fun f => d.count f + e f)
    (ha : allocuvm (kmem lo hi) d oldsz newsz s = .ok (ret, d', s')) :
    Balance lo hi s' fun f => d'.count f + e f := by
  unfold allocuvm at ha
  split at ha
  · cases ha
    exact h
  · rename_i hk
    split at ha
    · cases ha
      exact h
    · rename_i hle
      have hstop : pages oldsz + (pages newsz - pages oldsz) ≤ NPTENTRIES * NPTENTRIES := by
        have h₁ := pages_mono (Nat.not_lt.mp hle)
        have h₂ := (pages_le_nupage (Nat.le_of_not_le hk)).trans nupage_le
        omega
      split at ha
      · cases ha
      · rename_i d₁ s₁ hl
        cases ha
        exact (allocLoop_balance _ _ d s h hstop hl).congr fun f => by
          rw [AllocEnd.held, Nat.add_zero]
      · rename_i d₁ s₁ hl
        have hloop : Balance lo hi s₁ fun f => d₁.count f + e f :=
          (allocLoop_balance _ _ d s h hstop hl).congr fun f => by rw [AllocEnd.held, Nat.add_zero]
        cases hd : deallocuvm (kmem lo hi) d₁ newsz oldsz s₁ with
        | error x =>
          rw [hd] at ha
          cases ha
        | ok x =>
          rw [hd] at ha
          cases ha
          exact deallocuvm_balance hloop (Nat.le_of_not_le hk) hd
      · rename_i mem d₁ s₁ hl
        have hloop : Balance lo hi s₁ fun f => d₁.count f + (e f + one mem f) :=
          (allocLoop_balance _ _ d s h hstop hl).congr fun f => by
            rw [AllocEnd.held]
            omega
        cases hd : deallocuvm (kmem lo hi) d₁ newsz oldsz s₁ with
        | error x =>
          rw [hd] at ha
          cases ha
        | ok x =>
          obtain ⟨r, d₂, s₂⟩ := x
          rw [hd] at ha
          cases ha
          have hbal := deallocuvm_balance hloop (Nat.le_of_not_le hk) hd
          exact Balance.kfree (hbal.congr fun f => by dsimp only; omega)

/-! ## Whole address spaces -/

theorem freeTables_balance (hnone : ∀ q < NPTENTRIES * NPTENTRIES, d.pte q = none) :
    ∀ (m : Nat) (s : Free) (e : Frame → Nat), m ≤ NPTENTRIES →
      Balance lo hi s (fun f => (∑ i ∈ Finset.range m, tabCount (d.pde i) f) + e f) →
      Balance lo hi (freeTables (kmem lo hi) d m s) e
  | 0, s, e, _, h => h.congr fun f => by rw [Finset.sum_range_zero, Nat.zero_add]
  | m + 1, s, e, hm, h => by
    rw [freeTables]
    cases ht : d.pde m with
    | none =>
      refine freeTables_balance hnone m s e (by omega) (h.congr fun f => ?_)
      rw [Finset.sum_range_succ, ht, tabCount_none, Nat.add_zero]
    | some t =>
      have hempty : ∀ f, ∑ j ∈ Finset.range NPTENTRIES, pteCount (t.pte j) f = 0 := by
        intro f
        refine Finset.sum_eq_zero fun j hj => ?_
        have hj' := Finset.mem_range.mp hj
        have hq := hnone (m * NPTENTRIES + j) (by simp only [NPTENTRIES] at *; omega)
        have hdiv : (m * NPTENTRIES + j) / NPTENTRIES = m := by
          simp only [NPTENTRIES] at *
          omega
        have hmod : (m * NPTENTRIES + j) % NPTENTRIES = j := by
          simp only [NPTENTRIES] at *
          omega
        rw [Pgdir.pte, hdiv, hmod, ht, Option.bind_some] at hq
        rw [hq, pteCount_none]
      refine Balance.kfree (freeTables_balance hnone m s _ (by omega) (h.congr fun f => ?_))
      rw [Finset.sum_range_succ, ht, tabCount_some, hempty]
      omega

theorem deallocuvm_frame {k : Kmem Free}
    (hd : deallocuvm k d oldsz newsz s = .ok (ret, d', s')) : d'.frame = d.frame := by
  have hloop : ∀ (m p stop : Nat) (d : Pgdir) (s : Free) {d' : Pgdir} {s' : Free},
      deallocLoop k m p stop d s = .ok (d', s') → d'.frame = d.frame := by
    intro m
    induction m with
    | zero =>
      intro p stop d s d' s' h
      cases h
      rfl
    | succ m ih =>
      intro p stop d s d' s' h
      rw [deallocLoop] at h
      split at h
      · split at h
        · exact ih _ _ _ _ h
        · split at h
          · exact ih _ _ _ _ h
          · split at h
            · cases h
            · exact ih _ _ (d.setPte p none) _ h
      · cases h
        rfl
  unfold deallocuvm at hd
  split at hd
  · cases hd
    rfl
  · cases hl : deallocLoop k (pages oldsz - pages newsz) (pages newsz) (pages oldsz) d s with
    | error x =>
      rw [hl] at hd
      cases hd
    | ok x =>
      rw [hl] at hd
      cases hd
      exact hloop _ _ _ _ _ hl

/-- The entries of a directory are below page `n`. -/
def Pgdir.Below (d : Pgdir) (n : Nat) : Prop := ∀ q, n ≤ q → d.pte q = none

theorem freevm_balance (h : Balance lo hi s fun f => d.count f + e f) (hb : d.Below NUPAGE)
    (hf : freevm (kmem lo hi) d s = .ok s') : Balance lo hi s' e := by
  obtain ⟨d₁, s₁, hd, hpte⟩ := deallocuvm_spec (k := kmem lo hi) d (show 0 < KERNBASE by decide) s
  rw [freevm, hd] at hf
  cases hf
  have hbal := deallocuvm_balance h (Nat.le_refl _) hd
  have hnone : ∀ q < NPTENTRIES * NPTENTRIES, d₁.pte q = none := by
    intro q _
    rw [hpte]
    split
    · rfl
    · rename_i hq
      refine hb q ?_
      have h₀ : pages 0 = 0 := by decide
      have h₁ : pages KERNBASE = NUPAGE := by decide
      rw [h₀, h₁] at hq
      omega
  rw [← deallocuvm_frame hd]
  refine Balance.kfree (freeTables_balance hnone _ _ _ (Nat.le_refl _) (hbal.congr fun f => ?_))
  rw [Pgdir.count]
  omega

theorem mapKernel_balance :
    ∀ (is : List Nat) (d : Pgdir) (s : Free) {o : Option Pgdir}, (∀ i ∈ is, i < NPTENTRIES) →
      (∀ q, d.pte q = none) → Balance lo hi s (fun f => d.count f + e f) →
      mapKernel (kmem lo hi) is d s = .ok (o, s') → Balance lo hi s' fun f => dirCount o f + e f
  | [], d, s, o, _, _, h, hm => by
    cases hm
    exact h
  | i :: is, d, s, o, his, hnone, h, hm => by
    rw [mapKernel] at hm
    have hi' := his i List.mem_cons_self
    split at hm
    · rename_i d₁ s₁ hw
      have hbal := walkpgdir_balance h (by simp only [NPTENTRIES] at *; omega) hw
      simp only [Option.getD_some] at hbal
      refine mapKernel_balance is d₁ s₁ (fun j hj => his j (List.mem_cons_of_mem i hj)) (fun q => ?_)
        hbal hm
      rw [(walkpgdir_some hw).2.2, hnone]
    · rename_i s₁ hw
      have hbal := walkpgdir_balance h (by simp only [NPTENTRIES] at *; omega) hw
      cases hf : freevm (kmem lo hi) d s₁ with
      | error x =>
        rw [hf] at hm
        cases hm
      | ok s₂ =>
        rw [hf] at hm
        cases hm
        exact (freevm_balance hbal (fun q _ => hnone q) hf).congr fun f => by
          rw [dirCount_none, Nat.zero_add]

theorem count_empty (g f : Frame) : Pgdir.count ⟨g, fun _ => none⟩ f = one g f := by
  simp only [Pgdir.count, tabCount_none, Finset.sum_const_zero, Nat.add_zero]

theorem setupkvm_balance (h : Balance lo hi s e)
    (hs : setupkvm (kmem lo hi) s = .ok (o, s')) : Balance lo hi s' fun f => dirCount o f + e f := by
  unfold setupkvm at hs
  split at hs
  · rename_i s₁ hk
    cases hs
    exact (h.kalloc_none hk).congr fun f => by rw [dirCount_none, Nat.zero_add]
  · rename_i g s₁ hk
    refine mapKernel_balance _ _ _ (by decide) (fun q => rfl) ((h.kalloc_some hk).congr fun f => ?_) hs
    rw [count_empty]
    omega

variable {pgdir : Pgdir}

theorem copyLoop_balance : ∀ (m p : Nat) (d : Pgdir) (s : Free) {b : Bool},
      Balance lo hi s (fun f => d.count f + e f) → p + m ≤ NPTENTRIES * NPTENTRIES →
      copyLoop (kmem lo hi) pgdir m p d s = .ok (b, d', s') → Balance lo hi s' fun f => d'.count f + e f
  | 0, p, d, s, b, h, _, hc => by
    cases hc
    exact h
  | m + 1, p, d, s, b, h, hp, hc => by
    rw [copyLoop] at hc
    split at hc
    · cases hc
    · split at hc
      · cases hc
      · split at hc
        · rename_i s₁ hk
          cases hc
          exact h.kalloc_none hk
        · rename_i mem s₁ hk
          have hmem : Balance lo hi s₁ fun f => d.count f + one mem f + e f :=
            (h.kalloc_some hk).congr fun f => by omega
          split at hc
          · cases hc
          · rename_i d₁ s₂ hm
            cases hc
            refine Balance.kfree ((mappages_balance hmem (by omega) hm).congr fun f => ?_)
            simp only [Bool.false_eq_true, if_false]
            omega
          · rename_i d₁ s₂ hm
            refine copyLoop_balance m (p + 1) d₁ s₂ ?_ (by omega) hc
            refine (mappages_balance hmem (by omega) hm).congr fun f => ?_
            rw [if_pos rfl, Nat.add_zero]

theorem copyLoop_below {k : Kmem Free} :
    ∀ (m p : Nat) (d : Pgdir) (s : Free) {b : Bool} {d' : Pgdir} {s' : Free}, d.Below p →
      copyLoop k pgdir m p d s = .ok (b, d', s') → d'.Below (p + m)
  | 0, p, d, s, b, d', s', h, hc => by
    cases hc
    exact h
  | m + 1, p, d, s, b, d', s', h, hc => by
    rw [copyLoop] at hc
    split at hc
    · cases hc
    · split at hc
      · cases hc
      · split at hc
        · cases hc
          exact fun q hq => h q (by omega)
        · rename_i mem s₁ hk
          obtain ⟨ok, d₁, s₂, hm, hpte⟩ :=
            mappages_spec (k := k) mem _ (h p (Nat.le_refl p)) s₁
          rw [hm] at hc
          cases ok with
          | false =>
            cases hc
            intro q hq
            rw [hpte, if_neg (by omega)]
            exact h q (by omega)
          | true =>
            dsimp only at hc
            have hb : d₁.Below (p + 1) := by
              intro q hq
              rw [hpte, if_neg (by omega)]
              exact h q (by omega)
            have := copyLoop_below m (p + 1) d₁ s₂ hb hc
            rwa [Nat.add_right_comm] at this

theorem copyuvm_balance {sz : Nat} (h : Balance lo hi s e) (hsz : sz ≤ KERNBASE) (hc : copyuvm (kmem lo hi) pgdir sz s = .ok (o, s')) :
    (Balance lo hi s' fun f => dirCount o f + e f) ∧ ∀ d, o = some d → d.Below (pages sz) := by
  obtain ⟨o₁, s₁, hset, hnone⟩ := setupkvm_ok (k := kmem lo hi) s
  have hbal := setupkvm_balance h hset
  rw [copyuvm, hset] at hc
  cases o₁ with
  | none =>
    cases hc
    exact ⟨hbal, by rintro d ⟨⟩⟩
  | some d =>
    have hempty : d.Below 0 := fun q _ => hnone d rfl q
    dsimp only at hc
    split at hc
    · cases hc
    · rename_i d₁ s₂ hl
      cases hc
      refine ⟨copyLoop_balance _ _ d s₁ hbal ?_ hl, ?_⟩
      · have := (pages_le_nupage hsz).trans nupage_le
        omega
      · rintro d' ⟨⟩
        have := copyLoop_below _ _ d s₁ hempty hl
        rwa [Nat.zero_add] at this
    · rename_i d₁ s₂ hl
      have hle := pages_le_nupage hsz
      have hbelow := copyLoop_below _ _ d s₁ hempty hl
      rw [Nat.zero_add] at hbelow
      have hbal₂ := copyLoop_balance _ _ d s₁ hbal (by have := nupage_le; omega) hl
      cases hf : freevm (kmem lo hi) d₁ s₂ with
      | error x =>
        rw [hf] at hc
        cases hc
      | ok s₃ =>
        rw [hf] at hc
        cases hc
        refine ⟨(freevm_balance hbal₂ (fun q hq => hbelow q (hle.trans hq)) hf).congr fun f => ?_,
          by rintro d ⟨⟩⟩
        rw [dirCount_none, Nat.zero_add]

end Xv6.Vm
