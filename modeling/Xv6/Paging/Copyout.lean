import Xv6.Paging.Basic

/-!
# Copying out

`copyout` copies page by page, and `uva2ka` finds the page. What the copy comes to is
decided by the first address whose page the user cannot reach: if there is none, all the
bytes are stored; if its page table is there, `copyout` returns -1; and if its page table
is missing, `uva2ka` dereferences the null pointer that `walkpgdir` has returned.
-/

namespace Xv6.Paging

open Hoare Table Bytes

variable {d : Dir} {m : Mem}

/-- The user can reach page `p`: its entry is there with `PTE_P` and `PTE_U`. -/
def Dir.Reaches (d : Dir) (p : Nat) : Prop := ∃ e, d.pte? p = some e ∧ e.present = true ∧ e.user = true

/-- The page of the byte at distance `i` from `va`. -/
def pageOf (va i : Nat) : Nat := (va + i) % 2 ^ 32 / PGSIZE

/-- The frame that page `p` is mapped to. -/
def Dir.frameOf (d : Dir) (p : Nat) : Nat := ((d.pte? p).map Pte.frame).getD 0

/-- Store the bytes one after the other, each where its address is mapped to. -/
def Dir.write (d : Dir) : Nat → List UInt8 → (Nat → Page) → Nat → Page
  | _, [], ram => ram
  | va, b :: bs, ram =>
    d.write ((va + 1) % 2 ^ 32) bs (store ram (d.frameOf (va / PGSIZE)) (va % PGSIZE) b)

/-- The user reaches the first `i` bytes from `va` on. -/
def Dir.ReachesFor (d : Dir) (va i : Nat) : Prop := ∀ j < i, d.Reaches (pageOf va j)

/-- Of the bytes from `va` on, the first that the user cannot reach is in a page whose page
table is there. -/
def Dir.Tabled (d : Dir) (va len : Nat) : Prop :=
  ∀ i < len, d.ReachesFor va i → d.pte? (pageOf va i) ≠ none

/-- What `copyout` of `buf` to `va` comes to. -/
def Copied (d : Dir) (m : Mem) (va : Nat) (buf : List UInt8) (r : Int) (t : Mem) : Prop :=
  (r = 0 ∧ d.ReachesFor va buf.length ∧ t = { m with ram := d.write va buf m.ram }) ∨
  (r = -1 ∧ ∃ i < buf.length, d.ReachesFor va i ∧ d.pte? (pageOf va i) ≠ none ∧
    ¬ d.Reaches (pageOf va i))

/-- A null pointer is dereferenced. -/
def NullAt (d : Dir) (va len : Nat) (e : Panic) : Prop :=
  e = .nullPte ∧ ∃ i < len, d.ReachesFor va i ∧ d.pte? (pageOf va i) = none

/-! ## Within a page and beyond -/

theorem pageOf_zero {va : Nat} (hva : va < 2 ^ 32) : pageOf va 0 = va / PGSIZE := by
  rw [pageOf, Nat.add_zero, Nat.mod_eq_of_lt hva]

theorem pageOf_within {va j : Nat} (hva : va < 2 ^ 32) (hj : va % PGSIZE + j < PGSIZE) :
    pageOf va j = va / PGSIZE := by
  unfold pageOf
  simp only [PGSIZE] at *
  omega

theorem pageOf_next {va i : Nat} (hi : PGSIZE - va % PGSIZE ≤ i) :
    pageOf va i = pageOf ((va / PGSIZE + 1) * PGSIZE % 2 ^ 32) (i - (PGSIZE - va % PGSIZE)) := by
  unfold pageOf
  simp only [PGSIZE] at *
  omega

theorem write_append (va : Nat) (as bs : List UInt8) (ram : Nat → Page) (hva : va < 2 ^ 32) :
    d.write va (as ++ bs) ram = d.write ((va + as.length) % 2 ^ 32) bs (d.write va as ram) := by
  induction as generalizing va ram with
  | nil => rw [List.nil_append, List.length_nil, Nat.add_zero, Nat.mod_eq_of_lt hva, Dir.write]
  | cons a as ih =>
    rw [List.cons_append, Dir.write, Dir.write, ih _ _ (Nat.mod_lt _ (by decide)), List.length_cons,
      show ((va + 1) % 2 ^ 32 + as.length) % 2 ^ 32 = (va + (as.length + 1)) % 2 ^ 32 by omega]

theorem write_within (va : Nat) (bs : List UInt8) (ram : Nat → Page) (hva : va < 2 ^ 32)
    (hlen : va % PGSIZE + bs.length ≤ PGSIZE) :
    d.write va bs ram = memmove (d.frameOf (va / PGSIZE)) (va % PGSIZE) bs ram := by
  induction bs generalizing va ram with
  | nil => rfl
  | cons b bs ih =>
    rw [Dir.write, memmove]
    rw [List.length_cons] at hlen
    cases bs with
    | nil => rfl
    | cons b' bs =>
      simp only [List.length_cons, PGSIZE] at hlen ih ⊢
      rw [ih _ _ (Nat.mod_lt _ (by decide)) (by omega),
        show (va + 1) % 2 ^ 32 / 4096 = va / 4096 by omega,
        show (va + 1) % 2 ^ 32 % 4096 = va % 4096 + 1 by omega]

/-! ## The loop -/

theorem reaches_frameOf {p : Nat} {e : Pte} (h : d.pte? p = some e) : d.frameOf p = e.frame := by
  rw [Dir.frameOf, h]
  rfl

theorem uva2ka_spec (d : Dir) (p : Nat) : Wp (uva2ka d p) m (fun r t => t = m ∧ match r with
    | none => d.pte? p ≠ none ∧ ¬ d.Reaches p
    | some f => d.Reaches p ∧ f = d.frameOf p) fun e => e = .nullPte ∧ d.pte? p = none := by
  unfold uva2ka
  cases he : d.pte? p with
  | none => exact wp_throw.mpr ⟨rfl, rfl⟩
  | some e =>
    have hreach : d.Reaches p ↔ e.present = true ∧ e.user = true := by
      constructor
      · rintro ⟨e', he', h⟩
        rw [he] at he'
        cases he'
        exact h
      · exact fun h => ⟨e, he, h⟩
    refine wp_ite (fun hp => wp_pure.mpr ⟨rfl, by simp, fun h => ?_⟩) fun hp =>
      wp_ite (fun hu => wp_pure.mpr ⟨rfl, by simp, fun h => ?_⟩) fun hu => wp_pure.mpr ⟨rfl, ?_⟩
    · rw [(hreach.mp h).1] at hp
      cases hp
    · rw [(hreach.mp h).2] at hu
      cases hu
    · exact ⟨hreach.mpr ⟨by simpa using hp, by simpa using hu⟩, (reaches_frameOf he).symm⟩

theorem reachesFor_next {va i : Nat} (hva : va < 2 ^ 32) (h : d.Reaches (va / PGSIZE))
    (hrest : d.ReachesFor ((va / PGSIZE + 1) * PGSIZE % 2 ^ 32) (i - (PGSIZE - va % PGSIZE))) :
    d.ReachesFor va i := by
  intro j hj
  by_cases hin : va % PGSIZE + j < PGSIZE
  · rw [pageOf_within hva hin]
    exact h
  · rw [pageOf_next (by omega)]
    exact hrest _ (by omega)

theorem copyoutLoop_spec (d : Dir) : ∀ (fuel va : Nat) (buf : List UInt8) (m : Mem), va < 2 ^ 32 →
    buf.length ≤ fuel → Wp (copyoutLoop d fuel va buf) m (Copied d m va buf) (NullAt d va buf.length)
  | 0, va, buf, m, _, hlen => by
    obtain rfl : buf = [] := List.length_eq_zero_iff.mp (by omega)
    exact wp_pure.mpr (.inl ⟨rfl, (fun j hj => absurd hj (Nat.not_lt_zero j)), rfl⟩)
  | fuel + 1, va, buf, m, hva, hlen => by
    unfold copyoutLoop
    refine wp_ite (fun h0 => wp_pure.mpr (.inl ?_)) fun h0 => ?_
    · obtain rfl := List.length_eq_zero_iff.mp h0
      exact ⟨rfl, (fun j hj => absurd hj (Nat.not_lt_zero j)), rfl⟩
    have hnone : d.ReachesFor va 0 := fun j hj => absurd hj (Nat.not_lt_zero j)
    refine (uva2ka_spec d _).bind ?_ ?_
    · rintro (_ | f) t ⟨rfl, h⟩
      · refine wp_pure.mpr (.inr ⟨rfl, 0, by omega, hnone, ?_⟩)
        rw [pageOf_zero hva]
        exact h
      · obtain ⟨hreach, rfl⟩ := h
        dsimp only
        rw [wp_bind, wp_modify]
        generalize hn : min (PGSIZE - va % PGSIZE) buf.length = n
        have hlt : va % PGSIZE < PGSIZE := Nat.mod_lt _ (by decide)
        have hnpos : 0 < n := by omega
        -- The bytes of this page, as the addresses say.
        have hwrite : memmove (d.frameOf (va / PGSIZE)) (va % PGSIZE) (buf.take n) t.ram =
            d.write va (buf.take n) t.ram := by
          refine (write_within va _ _ hva ?_).symm
          rw [List.length_take]
          omega
        refine (copyoutLoop_spec d fuel _ (buf.drop n) _ (Nat.mod_lt _ (by decide))
          (by rw [List.length_drop]; omega)).mono ?_ ?_
        · rintro r u (⟨rfl, hall, rfl⟩ | ⟨rfl, i, hi, hall, hpte, hno⟩)
          · rw [List.length_drop] at hall
            refine .inl ⟨rfl, ?_, ?_⟩
            · refine reachesFor_next hva hreach fun j hj => hall j ?_
              omega
            · dsimp only
              rw [hwrite]
              by_cases hend : buf.length ≤ n
              · rw [List.drop_eq_nil_of_le hend, List.take_of_length_le hend]
                rfl
              · conv_rhs => rw [← List.take_append_drop n buf, write_append _ _ _ _ hva]
                rw [List.length_take, show (va + min n buf.length) % 2 ^ 32 =
                  (va / PGSIZE + 1) * PGSIZE % 2 ^ 32 by simp only [PGSIZE] at *; omega]
          · rw [List.length_drop] at hi
            have hne : n = PGSIZE - va % PGSIZE := by omega
            refine .inr ⟨rfl, i + n, by omega, ?_, ?_⟩
            · exact reachesFor_next hva hreach fun j hj => hall j (by omega)
            · rw [pageOf_next (by omega), show i + n - (PGSIZE - va % PGSIZE) = i by omega]
              exact ⟨hpte, hno⟩
        · rintro e ⟨rfl, i, hi, hall, hpte⟩
          rw [List.length_drop] at hi
          have hne : n = PGSIZE - va % PGSIZE := by omega
          refine ⟨rfl, i + n, by omega, ?_, ?_⟩
          · exact reachesFor_next hva hreach fun j hj => hall j (by omega)
          · rw [pageOf_next (by omega), show i + n - (PGSIZE - va % PGSIZE) = i by omega]
            exact hpte
    · rintro e ⟨rfl, hpte⟩
      refine ⟨rfl, 0, by omega, hnone, ?_⟩
      rw [pageOf_zero hva]
      exact hpte

theorem copyout_spec (d : Dir) (va : Nat) (buf : List UInt8) (m : Mem) (hva : va < 2 ^ 32) :
    Wp (copyout d va buf) m (Copied d m va buf) (NullAt d va buf.length) :=
  copyoutLoop_spec d _ va buf m hva (Nat.le_refl _)

theorem Dir.Tabled.not_null {va len : Nat} {e : Panic} (h : d.Tabled va len) : ¬ NullAt d va len e := by
  rintro ⟨-, i, hi, hall, hpte⟩
  exact h i hi hall hpte

theorem Copied.tabled {va : Nat} {buf : List UInt8} {r : Int} {t : Mem} (h : Copied d m va buf r t) :
    d.Tabled va buf.length := by
  have hreach : ∀ {p : Nat}, d.Reaches p → d.pte? p ≠ none := by
    rintro p ⟨e, he, -⟩ hc
    rw [hc] at he
    cases he
  intro i hi hall
  rcases h with ⟨-, h, -⟩ | ⟨-, k, hk, hbefore, hpte, hno⟩
  · exact hreach (h i hi)
  · -- The reachable bytes end at `k`.
    rcases Nat.lt_trichotomy i k with hlt | rfl | hgt
    · exact hreach (hbefore i hlt)
    · exact hpte
    · exact absurd (hall k hgt) hno

/-- `copyout` stores every byte in a page that is present with `PTE_U` and returns 0, or it
returns -1, and does not dereference a null pointer, exactly if the first byte that the user
cannot reach has its page table. -/
theorem copyout_tabled_iff (d : Dir) (va : Nat) (buf : List UInt8) (m : Mem) (hva : va < 2 ^ 32) :
    ((∃ r t, copyout d va buf m = .ok (r, t) ∧ Copied d m va buf r t) ↔ d.Tabled va buf.length) ∧
      (copyout d va buf m = .error .nullPte ↔ ¬ d.Tabled va buf.length) := by
  have hspec := copyout_spec d va buf m hva
  cases hrun : copyout d va buf m with
  | ok q =>
    have hq := wp_ok hspec hrun
    refine ⟨⟨fun _ => hq.tabled, fun _ => ⟨q.1, q.2, rfl, hq⟩⟩, ⟨fun hc => ?_, fun hc => ?_⟩⟩
    · cases hc
    · exact absurd hq.tabled hc
  | error e =>
    have he := wp_error hspec hrun
    have hno : ¬ d.Tabled va buf.length := fun h => h.not_null he
    refine ⟨⟨?_, fun h => absurd h hno⟩, ⟨fun _ => hno, fun _ => by rw [he.1]⟩⟩
    rintro ⟨r, t, hc, -⟩
    cases hc

/-- The page tables of a small program: one for its own pages, and those of the kernel. -/
def smallDir : Dir where
  frame := 1
  pde := fun i =>
    if i.val = 0 then some ⟨2, fun j => if j.val = 0 then ⟨3, PTE_P ||| PTE_W ||| PTE_U⟩ else .zero⟩
    else if 512 ≤ i.val ∧ i.val < 568 ∨ 1016 ≤ i.val then some ⟨4, fun _ => ⟨5, PTE_P ||| PTE_W⟩⟩
    else none

/-- Memory with nothing in it. -/
def emptyMem : Mem := ⟨[], fun _ => false, fun _ _ => 0⟩

/-- A stack pointer that has gone below address 0 by more than the 32 MB of the devices. -/
theorem copyout_null : copyout smallDir 0xFDFFFFFC [0] emptyMem = .error .nullPte := rfl

/-- A string in the one page of the program. -/
theorem copyout_tabled_iff_small : ((∃ r t, copyout smallDir 16 [120, 0] emptyMem = .ok (r, t) ∧
        Copied smallDir emptyMem 16 [120, 0] r t) ↔ smallDir.Tabled 16 2) ∧
      (copyout smallDir 16 [120, 0] emptyMem = .error .nullPte ↔ ¬ smallDir.Tabled 16 2) :=
  copyout_tabled_iff smallDir 16 [120, 0] emptyMem (by decide)

end Xv6.Paging
