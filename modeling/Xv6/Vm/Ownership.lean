import Xv6.Vm.System

/-!
# Every page has one owner

The invariant of the system: each frame that the allocator was given is in the free list, or
used once by the kernel's directory, by one process or by one pipe. Every call keeps it, also
when it fails, as long as `copyout` finds a page table: the arguments of `exec` are so short
that the stack pointer, should it wrap around, stays where the kernel maps devices.
-/

namespace Xv6.Vm

open Table Scan

variable {lo hi : Nat} {s t : Sys} {d d' : Pgdir} {g g' : Free} {c i : Fin NPROC}

/-! ## Counting in the system -/

def stackCount : Option Frame → Frame → Nat
  | none, _ => 0
  | some k, f => one k f

/-- The uses of a frame by an address space. -/
def memCount : Option Proc → Frame → Nat
  | none, _ => 0
  | some m, f => m.pgdir.count f

theorem stackCount_none (f : Frame) : stackCount none f = 0 := rfl

theorem stackCount_some (k f : Frame) : stackCount (some k) f = one k f := rfl

theorem memCount_none (f : Frame) : memCount none f = 0 := rfl

theorem memCount_some (m : Proc) (f : Frame) : memCount (some m) f = m.pgdir.count f := rfl

/-- The uses of a frame by a process. -/
def slotCount (x : Slot) (f : Frame) : Nat := stackCount x.kstack f + memCount x.mem f

def pipeCount (p : Ends) : Nat := if p.readopen = true ∨ p.writeopen = true then 1 else 0

def Sys.count (s : Sys) (f : Frame) : Nat :=
  s.kpgdir.count f + ∑ i, slotCount (s.slot i) f + pipeCount (s.pipe f)

/-- What is used by others than process `i`. -/
def Sys.others (s : Sys) (i : Fin NPROC) (f : Frame) : Nat :=
  s.kpgdir.count f + ∑ j ∈ Finset.univ.erase i, slotCount (s.slot j) f + pipeCount (s.pipe f)

theorem count_eq (s : Sys) (i : Fin NPROC) (f : Frame) :
    s.count f = slotCount (s.slot i) f + s.others i f := by
  unfold Sys.count Sys.others
  rw [← Finset.add_sum_erase Finset.univ _ (Finset.mem_univ i)]
  omega

theorem slot_setSlot (s : Sys) (i : Fin NPROC) (x : Slot) : (s.setSlot i x).slot i = x := upd_same ..

theorem slot_setSlot_ne (s : Sys) {i j : Fin NPROC} (x : Slot) (h : j ≠ i) :
    (s.setSlot i x).slot j = s.slot j := upd_ne _ _ h

theorem count_setSlot (s : Sys) (i : Fin NPROC) (x : Slot) (f : Frame) :
    (s.setSlot i x).count f = slotCount x f + s.others i f := by
  rw [count_eq _ i, slot_setSlot]
  have hrest : ∑ j ∈ Finset.univ.erase i, slotCount ((s.setSlot i x).slot j) f =
      ∑ j ∈ Finset.univ.erase i, slotCount (s.slot j) f :=
    Finset.sum_congr rfl fun j hj => by rw [slot_setSlot_ne s x (Finset.ne_of_mem_erase hj)]
  unfold Sys.others
  rw [hrest]
  rfl

theorem count_free (s : Sys) (g : Free) (f : Frame) : ({ s with free := g } : Sys).count f = s.count f :=
  rfl

theorem others_free (s : Sys) (g : Free) (i : Fin NPROC) (f : Frame) :
    ({ s with free := g } : Sys).others i f = s.others i f := rfl

/-! ## The invariant -/

/-- The entries are below the size, and the size is below the kernel. -/
structure Proc.Ok (m : Proc) : Prop where
  below : m.pgdir.Below (pages m.sz)
  size : m.sz < KERNBASE

theorem Proc.Ok.belowKernel {m : Proc} (h : m.Ok) : m.pgdir.Below NUPAGE :=
  fun q hq => h.below q ((pages_le_nupage (Nat.le_of_lt h.size)).trans hq)

def File.On (x : File) (p : Frame) (w : Bool) : Prop := 0 < x.ref ∧ x.pipe = some (p, w)

structure Inv (lo hi : Nat) (s : Sys) : Prop where
  balance : Balance lo hi s.free s.count
  kernel : ∀ q, s.kpgdir.pte q = none
  space : ∀ i m, (s.slot i).mem = some m → m.Ok
  there : ∀ i, (s.slot i).state ≠ .unused →
    (∃ k, (s.slot i).kstack = some k) ∧ ∃ m, (s.slot i).mem = some m
  gone : ∀ i, (s.slot i).state = .unused → (s.slot i).kstack = none ∧ (s.slot i).mem = none
  ends : ∀ f p w, (s.file f).On p w → (s.pipe p).isOpen w = true
  apart : ∀ f f' p w, (s.file f).On p w → (s.file f').On p w → f = f'

/-- The part of the invariant about one process. -/
structure Slot.Ok (x : Slot) : Prop where
  space : ∀ m, x.mem = some m → m.Ok
  there : x.state ≠ .unused → (∃ k, x.kstack = some k) ∧ ∃ m, x.mem = some m
  gone : x.state = .unused → x.kstack = none ∧ x.mem = none

theorem Inv.slotOk (h : Inv lo hi s) (i : Fin NPROC) : (s.slot i).Ok := ⟨h.space i, h.there i, h.gone i⟩

variable {x : Slot}

theorem Inv.setSlot (h : Inv lo hi s) (hx : x.Ok)
    (hbal : Balance lo hi g fun f => slotCount x f + s.others i f) :
    Inv lo hi ({ s with free := g }.setSlot i x) := by
  have hslot : ∀ j, (upd s.slot i x j).Ok := by
    intro j
    by_cases hj : j = i
    · rw [hj, upd_same]
      exact hx
    · rw [upd_ne _ _ hj]
      exact h.slotOk j
  refine ⟨hbal.congr fun f => ?_, h.kernel, fun j => (hslot j).space, fun j => (hslot j).there,
    fun j => (hslot j).gone, h.ends, h.apart⟩
  rw [count_setSlot, others_free]

theorem Inv.setFree (h : Inv lo hi s) (hbal : Balance lo hi g s.count) : Inv lo hi { s with free := g } :=
  ⟨hbal.congr fun f => count_free s g f, h.kernel, h.space, h.there, h.gone, h.ends, h.apart⟩

/-! ## Sizes -/

theorem Pgdir.Below.mono {a b : Nat} (h : d.Below a) (hab : a ≤ b) : d.Below b :=
  fun q hq => h q (hab.trans hq)

theorem allocuvm_grow {oldsz newsz : Nat} (hb : d.Below (pages oldsz)) (hsz : oldsz < KERNBASE) (g : Free) :
    ∃ ret d' g', allocuvm (kmem lo hi) d oldsz newsz g = .ok (ret, d', g') ∧
      (ret = 0 ∧ d'.Below (pages oldsz) ∨
        0 < ret ∧ (ret = newsz ∨ ret = oldsz) ∧ oldsz ≤ ret ∧ ret < KERNBASE ∧ d'.Below (pages ret) ∧
          (∀ q, q < pages oldsz → d'.pte q = d.pte q) ∧
          ∀ q, pages oldsz ≤ q → q < pages ret → d'.pte q ≠ none) := by
  by_cases hk : KERNBASE ≤ newsz
  · exact ⟨0, d, g, by rw [allocuvm, if_pos hk], Or.inl ⟨rfl, hb⟩⟩
  · by_cases hlt : oldsz < newsz
    · obtain ⟨ret, d', g', heq, hor⟩ := allocuvm_spec (k := kmem lo hi) hlt (Nat.not_le.mp hk)
        (fun q h₁ _ => hb q h₁) g
      refine ⟨ret, d', g', heq, ?_⟩
      rcases hor with ⟨rfl, hmapped, hsame⟩ | ⟨rfl, hsame⟩
      · have hmono := pages_mono (Nat.le_of_lt hlt)
        refine Or.inr ⟨by omega, Or.inl rfl, Nat.le_of_lt hlt, Nat.not_le.mp hk, fun q hq => ?_,
          fun q hq => hsame q (by omega), hmapped⟩
        rw [hsame q (by omega)]
        exact hb q (hmono.trans hq)
      · refine Or.inl ⟨rfl, fun q hq => ?_⟩
        rw [hsame q]
        exact hb q hq
    · have hret : allocuvm (kmem lo hi) d oldsz newsz g = .ok (oldsz, d, g) := by
        rw [allocuvm, if_neg hk]
        by_cases hlt' : newsz < oldsz
        · rw [if_pos hlt']
        · have heq : newsz = oldsz := by omega
          rw [if_neg hlt', heq, Nat.sub_self]
          rfl
      refine ⟨oldsz, d, g, hret, ?_⟩
      by_cases h0 : oldsz = 0
      · exact Or.inl ⟨h0, hb⟩
      · refine Or.inr ⟨by omega, Or.inr rfl, Nat.le_refl _, hsz, hb, fun _ _ => rfl, fun q h₁ h₂ => ?_⟩
        omega

theorem deallocuvm_shrink {oldsz : Nat} (hb : d.Below (pages oldsz)) (newsz : Nat) (g : Free) :
    ∃ ret d' g', deallocuvm (kmem lo hi) d oldsz newsz g = .ok (ret, d', g') ∧ ret ≤ oldsz ∧
      d'.Below (pages ret) := by
  by_cases hle : oldsz ≤ newsz
  · exact ⟨oldsz, d, g, by rw [deallocuvm, if_pos hle], Nat.le_refl _, hb⟩
  · obtain ⟨d', g', heq, hpte⟩ := deallocuvm_spec (k := kmem lo hi) d (Nat.not_le.mp hle) g
    refine ⟨newsz, d', g', heq, by omega, fun q hq => ?_⟩
    rw [hpte]
    split
    · rfl
    · rename_i hnot
      exact hb q (by omega)

/-! ## `sbrk` -/

theorem setSize_ok {pr : Proc} (hpr : pr.Ok) {sz : Nat}
    (h : sz = 0 ∧ d.Below (pages pr.sz) ∨ 0 < sz ∧ sz < KERNBASE ∧ d.Below (pages sz)) (g : Free) :
    ∃ r pr', setSize pr (sz, d, g) = (r, pr', g) ∧ pr'.Ok ∧ pr'.pgdir = d := by
  rcases h with ⟨rfl, hb⟩ | ⟨hpos, hlt, hb⟩
  · exact ⟨-1, { pr with pgdir := d }, rfl, ⟨hb, hpr.size⟩, rfl⟩
  · cases sz with
    | zero => exact absurd hpos (Nat.lt_irrefl 0)
    | succ sz => exact ⟨0, ⟨sz + 1, d⟩, rfl, ⟨hb, hlt⟩, rfl⟩

theorem growproc_balance {pr : Proc} {e : Frame → Nat} (hpr : pr.Ok)
    (h : Balance lo hi g fun f => pr.pgdir.count f + e f) (n : Int32) :
    ∃ r pr' g', growproc (kmem lo hi) pr n g = .ok (r, pr', g') ∧ pr'.Ok ∧
      Balance lo hi g' fun f => pr'.pgdir.count f + e f := by
  unfold growproc
  by_cases hpos : 0 < n
  · rw [if_pos hpos]
    obtain ⟨ret, d', g', heq, hor⟩ :=
      @allocuvm_grow lo hi pr.pgdir pr.sz (newSize pr.sz n) hpr.below hpr.size g
    have hbal := allocuvm_balance h heq
    have hcase : ret = 0 ∧ d'.Below (pages pr.sz) ∨
        0 < ret ∧ ret < KERNBASE ∧ d'.Below (pages ret) := by
      rcases hor with hz | ⟨hret, -, -, hlt, hb, -⟩
      · exact Or.inl hz
      · exact Or.inr ⟨hret, hlt, hb⟩
    obtain ⟨r, pr', hset, hok, rfl⟩ := setSize_ok hpr hcase g'
    exact ⟨r, pr', g', by rw [heq]; exact congrArg Except.ok hset, hok, hbal⟩
  · rw [if_neg hpos]
    by_cases hneg : n < 0
    · rw [if_pos hneg]
      obtain ⟨ret, d', g', heq, hle, hb⟩ :=
        @deallocuvm_shrink lo hi pr.pgdir pr.sz hpr.below (newSize pr.sz n) g
      have hbal := deallocuvm_balance h (Nat.le_of_lt hpr.size) heq
      have hcase : ret = 0 ∧ d'.Below (pages pr.sz) ∨
          0 < ret ∧ ret < KERNBASE ∧ d'.Below (pages ret) := by
        rcases Nat.eq_zero_or_pos ret with h0 | hret
        · exact Or.inl ⟨h0, hb.mono (pages_mono hle)⟩
        · exact Or.inr ⟨hret, Nat.lt_of_le_of_lt hle hpr.size, hb⟩
      obtain ⟨r, pr', hset, hok, rfl⟩ := setSize_ok hpr hcase g'
      exact ⟨r, pr', g', by rw [heq]; exact congrArg Except.ok hset, hok, hbal⟩
    · rw [if_neg hneg]
      exact ⟨0, pr, g, rfl, hpr, h⟩

/-- A panic that is not one of `kfree` or `mappages`. -/
def Stop.Benign : Stop → Prop
  | .vm .remap => False
  | .vm .kfree => False
  | .noPage => False
  | _ => True

/-- The call returns and keeps the invariant, or stops with another panic. -/
def Good (lo hi : Nat) : Except Stop Sys → Prop
  | .ok t => Inv lo hi t
  | .error x => x.Benign

theorem sbrk_good (h : Inv lo hi s) (halive : (s.slot c).state ≠ .unused) (n : Int32) :
    Good lo hi (sbrk lo hi c n s) := by
  obtain ⟨-, m, hm⟩ := h.there c halive
  have hbal : Balance lo hi s.free fun f =>
      m.pgdir.count f + (stackCount (s.slot c).kstack f + s.others c f) := by
    refine h.balance.congr fun f => ?_
    rw [count_eq s c, slotCount, hm, memCount_some]
    omega
  obtain ⟨r, m', g', hgrow, hok, hbal'⟩ := growproc_balance (h.space c m hm) hbal n
  rw [sbrk, hm]
  dsimp only
  rw [sysSbrk, hgrow]
  refine h.setSlot ⟨?_, fun _ => ⟨(h.there c halive).1, m', rfl⟩, fun hu => absurd hu halive⟩ ?_
  · rintro m ⟨⟩
    exact hok
  · refine hbal'.congr fun f => ?_
    rw [slotCount, memCount_some]
    dsimp only
    omega

/-! ## `fork` and `wait` -/

theorem copyLoop_error {pgdir : Pgdir} {k : Kmem Free} {x : Panic} :
    ∀ (m p : Nat) (d : Pgdir) (g : Free), d.Below p → copyLoop k pgdir m p d g = .error x →
      Stop.Benign (.vm x)
  | 0, p, d, g, _, hc => by cases hc
  | m + 1, p, d, g, h, hc => by
    rw [copyLoop] at hc
    split at hc
    · cases hc
      trivial
    · split at hc
      · cases hc
        trivial
      · split at hc
        · cases hc
        · rename_i mem g₁ hk
          obtain ⟨ok, d₁, g₂, hm, hpte⟩ := mappages_spec (k := k) mem _ (h p (Nat.le_refl p)) g₁
          rw [hm] at hc
          cases ok with
          | false => cases hc
          | true =>
            dsimp only at hc
            refine copyLoop_error m (p + 1) d₁ g₂ (fun q hq => ?_) hc
            rw [hpte, if_neg (by omega)]
            exact h q (by omega)

theorem copyuvm_error {pgdir : Pgdir} {k : Kmem Free} {x : Panic} {sz : Nat}
    (hc : copyuvm k pgdir sz g = .error x) : Stop.Benign (.vm x) := by
  obtain ⟨o, g₁, hset, hnone⟩ := setupkvm_ok (k := k) g
  rw [copyuvm, hset] at hc
  cases o with
  | none => cases hc
  | some d =>
    dsimp only at hc
    split at hc
    · rename_i y hl
      cases hc
      exact copyLoop_error _ _ d g₁ (fun q _ => hnone d rfl q) hl
    · cases hc
    · rename_i d₁ g₂ hl
      obtain ⟨g₃, hf⟩ := freevm_ok (k := k) d₁ g₂
      rw [hf] at hc
      cases hc

theorem dupFiles_on {file' : Fin NFILE → File} :
    ∀ (fs : List (Option (Fin NFILE))) (file : Fin NFILE → File), dupFiles file fs = .ok file' →
      ∀ f p w, (file' f).On p w → (file f).On p w
  | [], file, h, f, p, w, hon => by
    cases h
    exact hon
  | none :: fs, file, h, f, p, w, hon => dupFiles_on fs file h f p w hon
  | some f₀ :: fs, file, h, f, p, w, hon => by
    rw [dupFiles] at h
    split at h
    · cases h
    · rename_i href
      have := dupFiles_on fs _ h f p w hon
      by_cases hf : f = f₀
      · rw [hf, upd_same] at this
        rw [hf]
        exact ⟨by omega, this.2⟩
      · rwa [upd_ne _ _ hf] at this

theorem dupFiles_error {x : Stop} :
    ∀ (fs : List (Option (Fin NFILE))) (file : Fin NFILE → File), dupFiles file fs = .error x → x.Benign
  | [], file, h => by cases h
  | none :: fs, file, h => dupFiles_error fs file h
  | some f :: fs, file, h => by
    rw [dupFiles] at h
    split at h
    · cases h
      trivial
    · exact dupFiles_error fs _ h

theorem Inv.setFile (h : Inv lo hi s) {file : Fin NFILE → File}
    (hon : ∀ f p w, (file f).On p w → (s.file f).On p w) : Inv lo hi { s with file := file } :=
  ⟨h.balance, h.kernel, h.space, h.there, h.gone, fun f p w hf => h.ends f p w (hon f p w hf),
    fun f f' p w hf hf' => h.apart f f' p w (hon f p w hf) (hon f' p w hf')⟩

theorem fork_good (h : Inv lo hi s) (halive : (s.slot c).state ≠ .unused) :
    Good lo hi (fork lo hi c s) := by
  obtain ⟨-, m, hm⟩ := h.there c halive
  rw [fork, hm]
  split
  · exact h
  · rename_i np hnp
    obtain ⟨hk, hmem⟩ := h.gone np (of_decide_eq_true (firstFin_some hnp))
    have hbal : Balance lo hi s.free (s.others np) := by
      refine h.balance.congr fun f => ?_
      rw [count_eq s np, slotCount, hk, hmem, stackCount_none, memCount_none]
      omega
    have hcount : ∀ f, s.count f = s.others np f := by
      intro f
      rw [count_eq s np, slotCount, hk, hmem, stackCount_none, memCount_none]
      omega
    cases halloc : (kmem lo hi).kalloc s.free with
    | mk o g =>
      cases o with
      | none => exact h.setFree ((hbal.kalloc_none halloc).congr hcount)
      | some kstack =>
        have hstack := hbal.kalloc_some halloc
        have hok := h.space c m hm
        dsimp only
        split
        · rename_i x hc
          exact copyuvm_error hc
        · rename_i g₁ hc
          have := (copyuvm_balance hstack (Nat.le_of_lt hok.size) hc).1
          refine h.setFree (Balance.kfree (this.congr fun f => ?_))
          rw [hcount, dirCount_none]
          omega
        · rename_i d g₁ hc
          obtain ⟨hbal₁, hbelow⟩ := copyuvm_balance hstack (Nat.le_of_lt hok.size) hc
          split
          · rename_i x hdup
            exact dupFiles_error _ _ hdup
          · rename_i file hdup
            refine Inv.setFile (h.setSlot (g := g₁) (i := np)
              (x := ⟨.alive, some kstack, some ⟨m.sz, d⟩, c, (s.slot c).ofile⟩)
              ⟨?_, fun _ => ⟨⟨kstack, rfl⟩, _, rfl⟩, by rintro ⟨⟩⟩ ?_) (dupFiles_on _ _ hdup)
            · rintro m' ⟨⟩
              exact ⟨hbelow d rfl, hok.size⟩
            · refine hbal₁.congr fun f => ?_
              rw [slotCount, stackCount_some, memCount_some, dirCount_some]
              dsimp only
              omega

theorem wait_good (h : Inv lo hi s) (c : Fin NPROC) : Good lo hi (wait lo hi c s) := by
  rw [wait]
  split
  · exact h
  · rename_i i hi'
    obtain ⟨-, hz⟩ := of_decide_eq_true (firstFin_some hi')
    obtain ⟨⟨k, hk⟩, m, hm⟩ := h.there i (by rw [hz]; rintro ⟨⟩)
    rw [hk, hm]
    dsimp only
    have hbal : Balance lo hi s.free fun f => m.pgdir.count f + s.others i f + one k f := by
      refine h.balance.congr fun f => ?_
      rw [count_eq s i, slotCount, hk, hm, stackCount_some, memCount_some]
      omega
    have hok := h.space i m hm
    obtain ⟨g, hf⟩ := freevm_ok (k := kmem lo hi) m.pgdir ((kmem lo hi).kfree k s.free)
    rw [hf]
    refine h.setSlot ⟨by rintro m ⟨⟩, by rintro hc; exact absurd rfl hc, fun _ => ⟨rfl, rfl⟩⟩ ?_
    refine (freevm_balance hbal.kfree hok.belowKernel hf).congr fun f => ?_
    rw [slotCount, stackCount_none, memCount_none]
    omega

/-! ## Files and pipes -/

variable {w : Bool}

theorem pipeCount_open {p : Ends} (h : p.isOpen w = true) : pipeCount p = 1 := by
  cases w with
  | false => exact if_pos (Or.inl h)
  | true => exact if_pos (Or.inr h)

theorem isOpen_close {p : Ends} {w' : Bool} (h : w' ≠ w) : (p.close w).isOpen w' = p.isOpen w' := by
  cases w with
  | false =>
    cases w' with
    | false => exact absurd rfl h
    | true => rfl
  | true =>
    cases w' with
    | false => rfl
    | true => exact absurd rfl h

theorem count_setPipe (s : Sys) (p : Frame) (x : Ends) (f : Frame) :
    ({ s with pipe := upd s.pipe p x } : Sys).count f + (if f = p then pipeCount (s.pipe p) else 0) =
      s.count f + if f = p then pipeCount x else 0 := by
  unfold Sys.count
  dsimp only
  by_cases hf : f = p
  · rw [hf, upd_same, if_pos rfl, if_pos rfl]
    omega
  · rw [upd_ne _ _ hf, if_neg hf, if_neg hf]

variable {p : Frame}

theorem pipeclose_inv (h : Inv lo hi s) (hopen : (s.pipe p).isOpen w = true)
    (hoff : ∀ f, ¬ (s.file f).On p w) : Inv lo hi (pipeclose lo hi s p w) := by
  have hcount := fun f => count_setPipe s p ((s.pipe p).close w) f
  have hone := pipeCount_open hopen
  have hends : ∀ f p' w', (s.file f).On p' w' →
      (upd s.pipe p ((s.pipe p).close w) p').isOpen w' = true := by
    intro f p' w' hon
    by_cases hp : p' = p
    · subst hp
      have hw : w' ≠ w := by
        rintro rfl
        exact hoff f hon
      rw [upd_same, isOpen_close hw]
      exact h.ends f p' w' hon
    · rw [upd_ne _ _ hp]
      exact h.ends f p' w' hon
  unfold pipeclose
  dsimp only
  split
  · rename_i hboth
    have hzero : pipeCount ((s.pipe p).close w) = 0 := by
      unfold pipeCount
      rw [if_neg]
      rintro (hc | hc)
      · rw [hboth.1] at hc
        cases hc
      · rw [hboth.2] at hc
        cases hc
    refine ⟨Balance.kfree (h.balance.congr fun f => ?_), h.kernel, h.space, h.there, h.gone, hends,
      h.apart⟩
    have := hcount f
    rw [hone, hzero] at this
    rw [one]
    change Sys.count { s with pipe := _ } f + _ = _
    split at this <;> split <;> first | omega | (exfalso; tauto)
  · rename_i hboth
    have hone' : pipeCount ((s.pipe p).close w) = 1 := by
      unfold pipeCount
      rw [if_pos]
      by_contra hc
      refine hboth ⟨?_, ?_⟩
      · exact Bool.not_eq_true _ ▸ fun hr => hc (Or.inl hr)
      · exact Bool.not_eq_true _ ▸ fun hr => hc (Or.inr hr)
    refine ⟨h.balance.congr fun f => ?_, h.kernel, h.space, h.there, h.gone, hends, h.apart⟩
    have := hcount f
    rw [hone, hone'] at this
    omega

theorem fileclose_good (h : Inv lo hi s) (f : Fin NFILE) : Good lo hi (fileclose lo hi s f) := by
  unfold fileclose
  split
  · trivial
  · rename_i href
    split
    · rename_i hmore
      refine h.setFile fun f' p w hon => ?_
      by_cases hf : f' = f
      · rw [hf, upd_same] at hon
        rw [hf]
        exact ⟨by omega, hon.2⟩
      · rwa [upd_ne _ _ hf] at hon
    · have hoff : ∀ f' p w, (upd s.file f ⟨0, none⟩ f').On p w → f' ≠ f ∧ (s.file f').On p w := by
        intro f' p w hon
        by_cases hf : f' = f
        · rw [hf, upd_same] at hon
          exact absurd hon.1 (Nat.lt_irrefl 0)
        · rw [upd_ne _ _ hf] at hon
          exact ⟨hf, hon⟩
      have hinv := h.setFile fun f' p w hon => (hoff f' p w hon).2
      dsimp only
      split
      · exact hinv
      · rename_i p w hp
        have hon : (s.file f).On p w := ⟨by omega, hp⟩
        refine pipeclose_inv hinv (h.ends f p w hon) fun f' hf' => ?_
        obtain ⟨hne, hon'⟩ := hoff f' p w hf'
        exact hne (h.apart f' f p w hon' hon)

theorem Slot.Ok.withFiles (h : x.Ok) (ofile : Fin NOFILE → Option (Fin NFILE)) :
    Slot.Ok { x with ofile := ofile } := ⟨h.space, h.there, h.gone⟩

theorem Inv.setOfile (h : Inv lo hi s) (c : Fin NPROC) (ofile : Fin NOFILE → Option (Fin NFILE)) :
    Inv lo hi (s.setSlot c { s.slot c with ofile := ofile }) :=
  h.setSlot (g := s.free) ((h.slotOk c).withFiles ofile)
    (h.balance.congr fun f => (count_eq s c f).symm)

theorem close_good (h : Inv lo hi s) (c : Fin NPROC) (fd : Fin NOFILE) :
    Good lo hi (close lo hi c fd s) := by
  unfold close
  split
  · exact h
  · exact fileclose_good (h.setOfile c _) _

theorem closeAll_good (c : Fin NPROC) :
    ∀ (fds : List (Fin NOFILE)) (s : Sys), Inv lo hi s → Good lo hi (closeAll lo hi c fds s)
  | [], s, h => h
  | fd :: fds, s, h => by
    have hgood := close_good h c fd
    rw [closeAll]
    split
    · rename_i x hx
      rw [hx] at hgood
      exact hgood
    · rename_i t ht
      rw [ht] at hgood
      exact closeAll_good c fds t hgood

theorem closeAll_state (c i : Fin NPROC) :
    ∀ (fds : List (Fin NOFILE)) (s : Sys) {t : Sys}, closeAll lo hi c fds s = .ok t →
      (t.slot i).state = (s.slot i).state
  | [], s, t, h => by
    cases h
    rfl
  | fd :: fds, s, t, h => by
    rw [closeAll] at h
    split at h
    · cases h
    · rename_i u hu
      rw [closeAll_state c i fds u h]
      unfold close at hu
      split at hu
      · cases hu
        rfl
      · rename_i f hf
        have hset : ((s.setSlot c { s.slot c with ofile := upd (s.slot c).ofile fd none }).slot i).state =
            (s.slot i).state := by
          by_cases hi' : i = c
          · rw [hi', slot_setSlot]
          · rw [slot_setSlot_ne _ _ hi']
        rw [← hset]
        unfold fileclose at hu
        split at hu
        · cases hu
        · split at hu
          · cases hu
            rfl
          · dsimp only at hu
            split at hu
            · cases hu
              rfl
            · cases hu
              unfold pipeclose
              dsimp only
              split
              · rfl
              · rfl

theorem slotCount_exited (c i : Fin NPROC) (x : Slot) (f : Frame) :
    slotCount (x.exited c i) f = slotCount x f := by
  unfold Slot.exited
  dsimp only
  split
  · split
    · rfl
    · rfl
  · split
    · rfl
    · rfl

theorem Slot.Ok.exited (h : x.Ok) {c i : Fin NPROC} (hne : i = c → x.state ≠ .unused) :
    (x.exited c i).Ok := by
  unfold Slot.exited
  dsimp only
  split
  · rename_i hc
    have hthere := h.there (hne hc)
    split
    · exact ⟨h.space, fun _ => hthere, by rintro ⟨⟩⟩
    · exact ⟨h.space, fun _ => hthere, by rintro ⟨⟩⟩
  · split
    · exact ⟨h.space, h.there, h.gone⟩
    · exact h

theorem exit_good (h : Inv lo hi s) (halive : (s.slot c).state ≠ .unused) :
    Good lo hi (exit lo hi c s) := by
  unfold exit
  split
  · trivial
  · have hgood := closeAll_good c (List.finRange NOFILE) s h
    split
    · rename_i x hx
      rw [hx] at hgood
      exact hgood
    · rename_i t ht
      rw [ht] at hgood
      have hinv : Inv lo hi t := hgood
      have hslot : ∀ i, ((t.slot i).exited c i).Ok := fun i =>
        (hinv.slotOk i).exited fun hi' => by
          rw [hi', closeAll_state c c _ s ht]
          exact halive
      refine ⟨hinv.balance.congr fun f => ?_, hinv.kernel, fun i => (hslot i).space,
        fun i => (hslot i).there, fun i => (hslot i).gone, hinv.ends, hinv.apart⟩
      unfold Sys.count
      dsimp only
      rw [Finset.sum_congr rfl fun i _ => slotCount_exited c i (t.slot i) f]

theorem Inv.fresh (h : Inv lo hi s) (hp : p ∈ s.free.list) :
    pipeCount (s.pipe p) = 0 ∧ ∀ f w, ¬ (s.file f).On p w := by
  have hzero : pipeCount (s.pipe p) = 0 := by
    have h₁ := h.balance.once p
    have h₂ : 0 < s.free.list.count p := List.count_pos_iff.mpr hp
    have h₃ : pipeCount (s.pipe p) ≤ s.count p := Nat.le_add_left _ _
    split at h₁ <;> omega
  refine ⟨hzero, fun f w hon => ?_⟩
  rw [pipeCount_open (h.ends f p w hon)] at hzero
  cases hzero

theorem kalloc_mem (h : (kmem lo hi).kalloc g = (some p, g')) : p ∈ g.list := by
  simp only [kmem] at h
  split at h
  · cases h
  · rename_i l hl
    cases h
    rw [hl]
    exact List.mem_cons_self

theorem newPipe_inv (h : Inv lo hi s) (hk : (kmem lo hi).kalloc s.free = (some p, g))
    {f0 f1 : Fin NFILE} (h0 : (s.file f0).ref = 0) (h1 : (s.file f1).ref = 0) (hne : f1 ≠ f0) :
    Inv lo hi { s with
      free := g
      pipe := upd s.pipe p ⟨true, true⟩
      file := upd (upd s.file f0 ⟨1, some (p, false)⟩) f1 ⟨1, some (p, true)⟩ } := by
  obtain ⟨hzero, hoff⟩ := h.fresh (kalloc_mem hk)
  have hon : ∀ f q w, (upd (upd s.file f0 ⟨1, some (p, false)⟩) f1 ⟨1, some (p, true)⟩ f).On q w →
      f = f1 ∧ q = p ∧ w = true ∨ f = f0 ∧ q = p ∧ w = false ∨ q ≠ p ∧ (s.file f).On q w := by
    intro f q w hf
    by_cases hf1 : f = f1
    · rw [hf1, upd_same] at hf
      cases hf.2
      exact Or.inl ⟨hf1, rfl, rfl⟩
    · rw [upd_ne _ _ hf1] at hf
      by_cases hf0 : f = f0
      · rw [hf0, upd_same] at hf
        cases hf.2
        exact Or.inr (Or.inl ⟨hf0, rfl, rfl⟩)
      · rw [upd_ne _ _ hf0] at hf
        refine Or.inr (Or.inr ⟨?_, hf⟩)
        rintro rfl
        exact hoff f w hf
  refine ⟨(h.balance.kalloc_some hk).congr fun f => ?_, h.kernel, h.space, h.there, h.gone,
    fun f q w hf => ?_, fun f f' q w hf hf' => ?_⟩
  · have hcount := count_setPipe s p ⟨true, true⟩ f
    have htwo : pipeCount ⟨true, true⟩ = 1 := rfl
    rw [hzero, htwo] at hcount
    rw [one]
    change Sys.count { s with pipe := upd s.pipe p ⟨true, true⟩ } f = _
    split at hcount
    · rename_i hf
      rw [if_pos hf]
      omega
    · rename_i hf
      rw [if_neg hf]
      omega
  · rcases hon f q w hf with ⟨-, rfl, rfl⟩ | ⟨-, rfl, rfl⟩ | ⟨hq, hold⟩
    · dsimp only
      rw [upd_same]
      rfl
    · dsimp only
      rw [upd_same]
      rfl
    · dsimp only
      rw [upd_ne _ _ hq]
      exact h.ends f q w hold
  · rcases hon f q w hf with ⟨rfl, rfl, rfl⟩ | ⟨rfl, rfl, rfl⟩ | ⟨hq, hold⟩
    · rcases hon f' q true hf' with ⟨rfl, -, -⟩ | ⟨-, -, hc⟩ | ⟨hq, -⟩
      · rfl
      · cases hc
      · exact absurd rfl hq
    · rcases hon f' q false hf' with ⟨-, -, hc⟩ | ⟨rfl, -, -⟩ | ⟨hq, -⟩
      · cases hc
      · rfl
      · exact absurd rfl hq
    · rcases hon f' q w hf' with ⟨-, hc, -⟩ | ⟨-, hc, -⟩ | ⟨-, hold'⟩
      · exact absurd hc hq
      · exact absurd hc hq
      · exact h.apart f f' q w hold hold'

theorem closeBoth_good (h : Inv lo hi s) (f0 f1 : Fin NFILE) : Good lo hi (match fileclose lo hi s f0 with
      | .error x => .error x
      | .ok s => fileclose lo hi s f1) := by
  have hgood := fileclose_good h f0
  split
  · rename_i x hx
    rw [hx] at hgood
    exact hgood
  · rename_i t ht
    rw [ht] at hgood
    exact fileclose_good hgood f1

theorem pipe_good (h : Inv lo hi s) (c : Fin NPROC) : Good lo hi (pipe lo hi c s) := by
  have hoff : ∀ (file : Fin NFILE → File) (f f' : Fin NFILE) p w,
      (upd file f ⟨0, none⟩ f').On p w → (file f').On p w := by
    intro file f f' p w hon
    by_cases hf : f' = f
    · rw [hf, upd_same] at hon
      exact absurd hon.1 (Nat.lt_irrefl 0)
    · rwa [upd_ne _ _ hf] at hon
  unfold pipe
  split
  · exact h
  · rename_i f0 hf0
    have h0 : (s.file f0).ref = 0 := of_decide_eq_true (firstFin_some hf0)
    split
    · exact h.setFile fun f p w hon => hoff s.file f0 f p w hon
    · rename_i f1 hf1
      have hne : f1 ≠ f0 := by
        rintro rfl
        have := of_decide_eq_true (firstFin_some hf1)
        rw [upd_same] at this
        cases this
      have h1 : (s.file f1).ref = 0 := by
        have := of_decide_eq_true (firstFin_some hf1)
        rwa [upd_ne _ _ hne] at this
      split
      · rename_i g hk
        have hinv := h.setFile fun f p w hon => hoff s.file f0 f p w (hoff _ f1 f p w hon)
        exact hinv.setFree (h.balance.kalloc_none hk)
      · rename_i p g hk
        have hinv := newPipe_inv h hk h0 h1 hne
        dsimp only
        split
        · exact closeBoth_good hinv f0 f1
        · split
          · exact closeBoth_good hinv f0 f1
          · exact hinv.setOfile c _

end Xv6.Vm
