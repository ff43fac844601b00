import Xv6.Paging.Frames

/-!
# Ranges of addresses

What `mappages` and `deallocuvm` do to a range of addresses of any page directory,
whoever has the frames it refers to.

*Mapping.*  The loop of `mappages` runs until its address is the last one, and its
addresses wrap around. `mapAddrs` is that loop, and it is `mapLoop` (`mapAddrs_eq`),
which counts the pages.

*Freeing.*  The loop of `deallocuvm` skips the pages of a page table that is not there.
`deallocEach` visits every page, and does the same (`deallocLoop_eq`).
-/

namespace Xv6.Paging

open Hoare Table
open Vm (KERNBASE NPTENTRIES NUPAGE pages)

variable {L : Layout} {d d' : Dir} {m t u : Mem} {p q : Nat}

/-! ## Taking pages -/

/-- `j` pages were taken off the free list. -/
structure Drawn (m : Mem) (j : Nat) (t : Mem) : Prop where
  le : j ≤ m.free.length
  free : t.free = m.free.drop j
  deny : ∀ n, t.deny n = m.deny (n + j)

/-- Some pages were taken, and then there was none: the list is empty, or the call was denied. -/
def OutOfPages (m t : Mem) : Prop :=
  ∃ j ≤ m.free.length, t.free = m.free.drop j ∧ (j = m.free.length ∨ m.deny j = true)

theorem Drawn.refl (m : Mem) : Drawn m 0 m := ⟨Nat.zero_le _, rfl, fun _ => rfl⟩

theorem Drawn.outOfPages {i : Nat} (h : Drawn m i t) (h' : OutOfPages t u) : OutOfPages m u := by
  obtain ⟨j, hj, hfree, hend⟩ := h'
  have hlen := congrArg List.length h.free
  rw [List.length_drop] at hlen
  have := h.le
  refine ⟨i + j, by omega, by rw [hfree, h.free, List.drop_drop], hend.imp (fun _ => by omega) fun hd => ?_⟩
  rwa [h.deny, Nat.add_comm] at hd

theorem kalloc_drawn (m : Mem) (E : Panic → Prop) : Wp kalloc m (fun r t => match r with
      | some _ => Drawn m 1 t
      | none => OutOfPages m t) E := by
  unfold kalloc
  rw [wp_bind, wp_get]
  cases hfree : m.free with
  | nil =>
    simp only [wp_bind, wp_set, wp_pure]
    exact ⟨0, Nat.zero_le _, by rw [hfree]; rfl, .inl (by rw [hfree]; rfl)⟩
  | cons f fs =>
    cases hdeny : m.deny 0 with
    | true =>
      simp only [wp_bind, wp_set, wp_pure]
      exact ⟨0, Nat.zero_le _, by rw [hfree]; rfl, .inr hdeny⟩
    | false =>
      simp only [wp_bind, wp_set, wp_pure]
      exact ⟨by rw [hfree]; simp, by rw [hfree]; rfl, fun _ => rfl⟩

theorem walkpgdir_drawn (d : Dir) (p : Nat) (m : Mem) (E : Panic → Prop) :
    Wp (walkpgdir d p) m (fun r t => match r with
      | some d' => (∃ j, Drawn m j t) ∧ d'.HasTab p ∧ ∀ q, d'.entry q = d.entry q
      | none => OutOfPages m t) E := by
  unfold walkpgdir
  cases ht : d.pde (pdx p) with
  | some tab =>
    refine wp_pure.mpr ⟨⟨0, .refl m⟩, ?_, fun _ => rfl⟩
    unfold Dir.HasTab
    rw [ht]
    exact Option.some_ne_none _
  | none =>
    refine (kalloc_drawn m E).seq ?_
    rintro (_ | f) t hdrawn
    · exact wp_pure.mpr hdrawn
    · exact wp_pure.mpr ⟨⟨1, hdrawn⟩, hasTab_addTab.mpr (.inr rfl), fun q => entry_addTab fun hc => hc ht⟩

/-! ## Mapping a range -/

/-- The loop of `mappages` from address `a` on, with what is left after a number of iterations it does
not end in. -/
def mapAddrs (perm : BitVec 12) (last : Nat) : Nat → Dir → Nat → Nat → M (Option (Bool × Dir))
  | 0, _, _, _ => return none
  | n + 1, d, a, pa => do
    match ← walkpgdir d (a / PGSIZE) with
    | none => return some (false, d)
    | some d =>
      match d.pte? (a / PGSIZE) with
      | none => throw .nullPte
      | some e =>
        if e.present then throw .remap
        else
          let d := d.setPte (a / PGSIZE) ⟨pa / PGSIZE, BitVec.ofNat 12 pa ||| perm ||| PTE_P⟩
          if a = last then return some (true, d)
          else mapAddrs perm last n d ((a + PGSIZE) % 2 ^ 32) ((pa + PGSIZE) % 2 ^ 32)

/-- `mappages` as it is written: the addresses from `PGROUNDDOWN(va)` to `PGROUNDDOWN(va + size - 1)`. -/
def mappagesFor (fuel : Nat) (d : Dir) (va size pa : Nat) (perm : BitVec 12) : M (Option (Bool × Dir)) :=
  mapAddrs perm ((va + size + 2 ^ 32 - 1) % 2 ^ 32 / PGSIZE * PGSIZE) fuel d (va / PGSIZE * PGSIZE) pa

theorem mapAddrs_eq (perm : BitVec 12) : ∀ (n fuel : Nat) (d : Dir) (p f : Nat), n < fuel →
    p + n < NPAGE → f < NPAGE → mapAddrs perm ((p + n) * PGSIZE) fuel d (p * PGSIZE) (f * PGSIZE) =
      some <$> mapLoop (perm ||| PTE_P) (n + 1) d p f
  | n, 0, _, _, _, h, _, _ => absurd h (Nat.not_lt_zero n)
  | n, fuel + 1, d, p, f, h, hp, hf => by
    have hpage : p * PGSIZE / PGSIZE = p := Nat.mul_div_cancel p (by decide)
    have hframe : f * PGSIZE / PGSIZE = f := Nat.mul_div_cancel f (by decide)
    have hlow : BitVec.ofNat 12 (f * PGSIZE) = 0#12 := by
      apply BitVec.eq_of_toNat_eq
      simp only [BitVec.toNat_ofNat, PGSIZE]
      omega
    unfold mapAddrs mapLoop
    rw [hpage, hframe, hlow, BitVec.zero_or, map_bind]
    congr 1
    funext r
    cases r with
    | none => rfl
    | some d' =>
      dsimp only
      cases d'.pte? p with
      | none => rfl
      | some e =>
        dsimp only
        split
        case isTrue => rfl
        case isFalse =>
          cases n with
          | zero =>
            rw [Nat.add_zero, if_pos rfl]
            unfold mapLoop
            rfl
          | succ n =>
            have hne : ¬ p * PGSIZE = (p + (n + 1)) * PGSIZE := by
              rw [Nat.add_mul]
              simp only [PGSIZE]
              omega
            have hnext : (p * PGSIZE + PGSIZE) % 2 ^ 32 = (p + 1) * PGSIZE := by
              rw [← Nat.succ_mul]
              exact Nat.mod_eq_of_lt (Nat.mul_lt_mul_of_pos_right (show p + 1 < NPAGE by omega) (by decide))
            have hwrap : (f * PGSIZE + PGSIZE) % 2 ^ 32 = (f + 1) % 2 ^ 20 * PGSIZE := by
              rw [← Nat.succ_mul]
              exact Nat.mul_mod_mul_right PGSIZE (f + 1) (2 ^ 20)
            rw [if_neg hne, hnext, hwrap, show p + (n + 1) = p + 1 + n by omega]
            exact mapAddrs_eq perm n fuel _ _ _ (by omega) (by omega) (Nat.mod_lt _ (by decide))

/-- What mapping `n` pages from `p` on to the frames from `f` on did. -/
structure MappedRange (d : Dir) (m : Mem) (p n f : Nat) (flags : BitVec 12) (r : Bool × Dir) (t : Mem) :
    Prop where
  inside : r.1 = true → ∀ q, p ≤ q → q < p + n → r.2.entry q = ⟨(f + (q - p)) % 2 ^ 20, flags⟩
  outside : ∀ q < NPAGE, ¬ (p ≤ q ∧ q < p + n) → r.2.entry q = d.entry q
  failed : r.1 = false → OutOfPages m t

theorem mapLoop_range (flags : BitVec 12) : ∀ (n : Nat) (d : Dir) (p f : Nat) (m : Mem),
    p + n ≤ NPAGE → f < NPAGE → (∀ q, p ≤ q → q < p + n → (d.entry q).present = false) →
    Wp (mapLoop flags n d p f) m (fun r t => MappedRange d m p n f flags r t) fun _ => False
  | 0, d, p, f, m, _, _, _ =>
    wp_pure.mpr ⟨fun _ q h1 h2 => absurd h2 (Nat.not_lt.mpr h1), fun _ _ _ => rfl, fun h => (by cases h)⟩
  | n + 1, d, p, f, m, hp, hf, hno => by
    unfold mapLoop
    refine (walkpgdir_drawn d p m _).seq ?_
    rintro (_ | d') t ht
    · exact wp_pure.mpr ⟨fun h => (by cases h), fun _ _ _ => rfl, fun _ => ht⟩
    obtain ⟨⟨j, hj⟩, htab, hent⟩ := ht
    have hlt : p < NPAGE := by omega
    dsimp only
    rw [pte?_of_hasTab htab]
    dsimp only
    rw [hent, if_neg (by rw [hno p (Nat.le_refl p) (by omega)]; exact Bool.false_ne_true)]
    have hset : ∀ q < NPAGE, (d'.setPte p ⟨f, flags⟩).entry q = if q = p then ⟨f, flags⟩ else d.entry q :=
      fun q hq => by rw [entry_setPte hlt hq htab, hent]
    refine (mapLoop_range flags n _ (p + 1) ((f + 1) % 2 ^ 20) t (by omega) (Nat.mod_lt _ (by decide))
      fun q h1 h2 => ?_).imp fun r u hr => ⟨fun hok q h1 h2 => ?_, fun q hq hout => ?_, fun hbad =>
        hj.outOfPages (hr.failed hbad)⟩
    · rw [hset q (by omega), if_neg (by omega)]
      exact hno q (by omega) (by omega)
    · by_cases hqp : q = p
      · rw [hr.outside q (by omega) (by omega), hset q (by omega), if_pos hqp, hqp, Nat.sub_self, Nat.add_zero,
          Nat.mod_eq_of_lt hf]
      · rw [hr.inside hok q (by omega) (by omega), Nat.mod_add_mod, show f + 1 + (q - (p + 1)) = f + (q - p) by omega]
    · rw [hr.outside q hq (by omega), hset q hq, if_neg (by omega)]

/-- Free the given number of pages from page `p` on, one by one. -/
def deallocEach (L : Layout) : Nat → Nat → Dir → M Dir
  | 0, _, d => return d
  | n + 1, p, d =>
    match d.pte? p with
    | none => deallocEach L n (p + 1) d
    | some e =>
      if e.present then
        if e.frame = 0 then throw .kfree
        else do
          kfree L e.frame
          deallocEach L n (p + 1) (d.setPte p Pte.zero)
      else deallocEach L n (p + 1) d

/-- `deallocuvm` that visits every page from `PGROUNDUP(newsz)` below `oldsz`. -/
def deallocuvmEach (L : Layout) (d : Dir) (oldsz newsz : Nat) : M (Nat × Dir) :=
  if oldsz ≤ newsz then return (oldsz, d)
  else do
    let d ← deallocEach L (pages oldsz - pages newsz) (pages newsz) d
    return (newsz, d)

theorem deallocEach_skip : ∀ (j n p : Nat), (∀ q, p ≤ q → q < p + j → d.pte? q = none) →
    deallocEach L (j + n) p d = deallocEach L n (p + j) d
  | 0, n, p, _ => by rw [Nat.zero_add, Nat.add_zero]
  | j + 1, n, p, h => by
    rw [Nat.succ_add, deallocEach, h p (Nat.le_refl p) (by omega)]
    dsimp only
    rw [deallocEach_skip j n (p + 1) fun q h1 h2 => h q (by omega) (by omega), Nat.add_right_comm, Nat.add_assoc]

theorem pte?_skipped (h : d.pte? p = none) (h1 : p ≤ q) (h2 : q < (p / NPTENTRIES + 1) * NPTENTRIES) :
    d.pte? q = none := by
  have hsame : pdx q = pdx p := by
    apply Fin.ext
    unfold pdx
    simp only [NPTENTRIES] at *
    omega
  unfold Dir.pte? at h ⊢
  rw [hsame, Option.map_eq_none_iff.mp h]
  rfl

theorem deallocLoop_eq : ∀ (n p stop : Nat) (d : Dir), stop - p ≤ n →
    deallocLoop L n p stop d = deallocEach L (stop - p) p d
  | 0, p, stop, d, h => by
    rw [Nat.le_zero.mp h]
    rfl
  | n + 1, p, stop, d, h => by
    rw [deallocLoop]
    by_cases hlt : p < stop
    · obtain ⟨k, rfl⟩ : ∃ k, stop = p + 1 + k := ⟨stop - (p + 1), by omega⟩
      have hcount : p + 1 + k - p = k + 1 := by omega
      have hrest : p + 1 + k - (p + 1) = k := Nat.add_sub_cancel_left _ _
      rw [if_pos hlt, hcount]
      cases hpte : d.pte? p with
      | none =>
        dsimp only
        have hnext : p < (p / NPTENTRIES + 1) * NPTENTRIES := by simp only [NPTENTRIES]; omega
        generalize hp' : (p / NPTENTRIES + 1) * NPTENTRIES = p' at hnext
        rw [deallocLoop_eq n p' _ d (by omega)]
        -- the loop goes on at `p'`, or ends if that is behind the last page
        have hskip := deallocEach_skip (L := L) (min (p' - p) (k + 1)) (k + 1 - (p' - p)) p fun q h1 h2 =>
          pte?_skipped hpte h1 (by omega)
        rw [show min (p' - p) (k + 1) + (k + 1 - (p' - p)) = k + 1 by omega] at hskip
        rw [hskip]
        by_cases hend : p' ≤ p + 1 + k
        · rw [show p + min (p' - p) (k + 1) = p' by omega, show p + 1 + k - p' = k + 1 - (p' - p) by omega]
        · rw [show p + 1 + k - p' = 0 by omega, show k + 1 - (p' - p) = 0 by omega]
          rfl
      | some e =>
        have ih := fun d => deallocLoop_eq n (p + 1) (p + 1 + k) d (by omega)
        rw [hrest] at ih
        simp only [ih, deallocEach, hpte]
    · rw [if_neg hlt, Nat.sub_eq_zero_of_le (by omega)]
      rfl

/-- No page from `p` to `stop` is mapped any more, and the other entries are as they were. -/
structure FreedRange (p stop : Nat) (d d' : Dir) : Prop where
  gone : ∀ q, p ≤ q → q < stop → (d'.entry q).present = false
  outside : ∀ q < NPAGE, ¬ (p ≤ q ∧ q < stop) → d'.entry q = d.entry q

theorem FreedRange.empty (d : Dir) {stop : Nat} (h : stop ≤ p) : FreedRange p stop d d :=
  ⟨fun _ h1 h2 => absurd h2 (Nat.not_lt.mpr (h.trans h1)), fun _ _ _ => rfl⟩

theorem FreedRange.cons {d₁ : Dir} {stop : Nat} (hp : p < NPAGE) (hlt : p < stop) (hgone : (d₁.entry p).present = false)
    (hsame : ∀ q < NPAGE, q ≠ p → d₁.entry q = d.entry q) (h : FreedRange (p + 1) stop d₁ d') :
    FreedRange p stop d d' := by
  refine ⟨fun q h1 h2 => ?_, fun q hq hout => ?_⟩
  · by_cases hqp : q = p
    · rw [hqp, h.outside p hp (by omega), hgone]
    · exact h.gone q (by omega) h2
  · rw [h.outside q hq (by omega), hsame q hq (by omega)]

theorem deallocEach_freed : ∀ (n p : Nat) (d : Dir) (m : Mem), p + n ≤ NPAGE →
    Wp (deallocEach L n p d) m (fun d' _ => FreedRange p (p + n) d d') fun _ => True
  | 0, p, d, m, _ => wp_pure.mpr (.empty d (Nat.le_refl p))
  | n + 1, p, d, m, hp => by
    have hlt : p < NPAGE := by omega
    have hrest := fun d t => (deallocEach_freed n (p + 1) d t (by omega)).imp
      fun d' _ h => Nat.add_right_comm p 1 n ▸ h
    have hentry : d.entry p = (d.pte? p).getD Pte.zero := rfl
    unfold deallocEach
    cases hpte : d.pte? p with
    | none => exact (hrest d m).imp fun d' _ h => h.cons hlt (by omega) (by rw [hentry, hpte]; rfl) fun _ _ _ => rfl
    | some e =>
      rw [hpte] at hentry
      have htab : d.HasTab p := hasTab_iff.mpr (by rw [hpte]; exact Option.some_ne_none e)
      refine wp_ite (fun _ => wp_ite (fun _ => wp_throw.mpr trivial) fun _ => ?_) fun hno => ?_
      · refine (wp_any (kfree L e.frame)).seq (fun _ t _ => (hrest _ t).imp fun d' _ h =>
          h.cons hlt (by omega) ?_ fun q hq hne => ?_)
        · rw [entry_setPte hlt hlt htab, if_pos rfl]
          rfl
        · rw [entry_setPte hlt hq htab, if_neg hne]
      · exact (hrest d m).imp fun d' _ h => h.cons hlt (by omega) (by rw [hentry]; simpa using hno) fun _ _ _ => rfl

/-- Skipping page tables that are not there loses no page: `deallocuvm` does what a visit of every page
does. However many iterations it is given beyond the number of pages, it ends the same. -/
theorem deallocuvm_eq_each (L : Layout) (d : Dir) {oldsz newsz : Nat} (hle : oldsz ≤ KERNBASE) :
    deallocuvm L d oldsz newsz = deallocuvmEach L d oldsz newsz ∧
    (∀ n, pages oldsz - pages newsz ≤ n → deallocLoop L n (pages newsz) (pages oldsz) d =
      deallocEach L (pages oldsz - pages newsz) (pages newsz) d) ∧
    ∀ m r t, deallocuvm L d oldsz newsz m = .ok (r, t) → FreedRange (pages newsz) (pages oldsz) d r.2 := by
  have hpages : pages oldsz ≤ NPAGE := by
    unfold pages
    simp only [KERNBASE, PGSIZE, NPAGE] at *
    omega
  have heq : deallocuvm L d oldsz newsz = deallocuvmEach L d oldsz newsz := by
    rw [deallocuvm, deallocuvmEach, deallocLoop_eq _ _ _ d (Nat.le_refl _)]
  refine ⟨heq, fun n hn => deallocLoop_eq n _ _ d hn, fun m r t hrun => ?_⟩
  rw [heq] at hrun
  have hspec : Wp (deallocuvmEach L d oldsz newsz) m
      (fun r _ => FreedRange (pages newsz) (pages oldsz) d r.2) fun _ => True := by
    unfold deallocuvmEach
    refine wp_ite (fun hge => wp_pure.mpr (.empty d (Nat.div_le_div_right (by omega)))) fun hlt => ?_
    have hmono : pages newsz ≤ pages oldsz := Nat.div_le_div_right (by omega)
    refine (deallocEach_freed _ _ d m (by omega)).seq (fun d' t h => wp_pure.mpr ?_)
    rwa [Nat.add_sub_cancel' hmono] at h
  exact (wp_ok hspec hrun :)

/-- An address space with one page, in frame 500. -/
def onePage : Dir :=
  ⟨1, upd (fun _ => none) (pdx 0) (some ⟨2, upd (fun _ => Pte.zero) (ptx 0) ⟨500, PTE_P⟩⟩)⟩

theorem deallocuvm_eq_each_all : deallocuvm ⟨300, 400, by decide, by decide, by decide⟩ onePage KERNBASE 0 =
      deallocuvmEach ⟨300, 400, by decide, by decide, by decide⟩ onePage KERNBASE 0 :=
  (deallocuvm_eq_each _ onePage (Nat.le_refl KERNBASE)).1

end Xv6.Paging
