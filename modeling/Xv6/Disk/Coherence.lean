import Xv6.Disk.Bcache

/-!
# The buffer cache is coherent

The cache and the disk together stand for a plain map from block numbers to
contents: what `bread` returns is what was last written to the block.

The argument rests on searching. All buffers start with the same device and block
number, so two buffers may well have the same tag. But a buffer in use is the one
a search for its tag finds (`Listed.first`), hence no two buffers in use have the
same tag, and a block has one copy.
-/

namespace Xv6.Bcache

open Table Ring Trans

variable {H : Type} {s t : Sys H} {m : Contents} {l : List (Fin NBUF)}

/-! ## The invariant -/

/-- The buffer stands for a block: it is valid, dirty or referenced. -/
def Buf.InUse (p : Buf H) : Prop := p.valid = true ∨ p.dirty = true ∨ 0 < p.refcnt

/-- The list holds every buffer once, and a search for the tag of a buffer in use finds
it. -/
structure Listed (s : Sys H) (l : List (Fin NBUF)) : Prop where
  ring : IsRing s.next s.prev l
  all : ∀ b, b ∈ l
  first : ∀ b, (s.buf b).InUse → l.find? (isBlock s (s.buf b).dev (s.buf b).blockno) = some b

/-- The handle uses the buffer `b`. -/
def Uses (b : Fin NBUF) (u : Option Use) : Prop := u.map Use.buf = some b

instance (b : Fin NBUF) : DecidablePred (Uses b) := fun _ => inferInstanceAs (Decidable (_ = _))

/-- The user holds the lock of its buffer. -/
def Stage.Locked (g : Stage) : Prop := g = .held ∨ g = .reads ∨ g = .changed

/-- The cache and the disk stand for the map `m`. -/
structure Coherent [Fintype H] (s : Sys H) (m : Contents) : Prop where
  listed : ∃ l, Listed s l
  count : ∀ b, (s.buf b).refcnt = (Finset.univ.filter fun h => Uses b (s.use h)).card
  tag : ∀ h u, s.use h = some u →
    (s.buf u.buf).dev = u.dev ∧ (s.buf u.buf).blockno = u.blockno
  lock : ∀ b h, (s.buf b).lock = some h ↔
    ∃ u, s.use h = some u ∧ u.buf = b ∧ u.stage.Locked
  ready : ∀ h u, s.use h = some u → u.stage = .reads ∨ u.stage = .changed →
    (s.buf u.buf).valid = true
  dirty : ∀ b, (s.buf b).dirty = true → (s.buf b).valid = true
  dev : ∀ b, (s.buf b).valid = true → (s.buf b).dev = 1
  data : ∀ b, (s.buf b).valid = true →
    (∀ h u, s.use h = some u → u.buf = b → u.stage ≠ .changed) →
    (s.buf b).data = m (s.buf b).blockno
  disk : ∀ n, (∀ b, (s.buf b).dirty = true → (s.buf b).blockno ≠ n) → s.disk n = m n

/-! ## The list -/

theorem Listed.length (h : Listed s l) : l.length = NBUF := by
  have hl : l.toFinset = Finset.univ := Finset.eq_univ_of_forall fun b => List.mem_toFinset.mpr (h.all b)
  rw [← List.toFinset_card_of_nodup h.ring.nodup, hl, Finset.card_univ, Fintype.card_fin]

variable {b c : Fin NBUF}

theorem Listed.unique (h : Listed s l) (hb : (s.buf b).InUse)
    (hc : (s.buf c).InUse) (hdev : (s.buf b).dev = (s.buf c).dev)
    (hno : (s.buf b).blockno = (s.buf c).blockno) : b = c := by
  have h1 := h.first b hb
  rw [hdev, hno, h.first c hc] at h1
  exact (Option.some.inj h1).symm

theorem Listed.search (h : Listed s l) (dev blockno : UInt32) :
    walk s.next (isBlock s dev blockno) (NBUF + 1) (s.next none) = l.find? (isBlock s dev blockno) :=
  h.ring.walk_next _ (by rw [h.length]; exact Nat.lt_succ_self _)

theorem Listed.search_free (h : Listed s l)
    (hb : walk s.prev (isFree s) (NBUF + 1) (s.prev none) = some b) :
    (s.buf b).refcnt = 0 ∧ (s.buf b).dirty = false := by
  rw [h.ring.walk_prev _ (by rw [h.length]; exact Nat.lt_succ_self _)] at hb
  have hfree : isFree s b = true := List.find?_some hb
  exact of_decide_eq_true hfree

theorem isBlock_congr (htag : ∀ c, (t.buf c).dev = (s.buf c).dev ∧
    (t.buf c).blockno = (s.buf c).blockno) (dev blockno : UInt32) :
    isBlock t dev blockno = isBlock s dev blockno := by
  funext c
  rw [isBlock, isBlock, (htag c).1, (htag c).2]

theorem Listed.same (h : Listed s l) (hnext : t.next = s.next) (hprev : t.prev = s.prev)
    (htag : ∀ c, (t.buf c).dev = (s.buf c).dev ∧ (t.buf c).blockno = (s.buf c).blockno)
    (huse : ∀ c, (t.buf c).InUse → (s.buf c).InUse ∨
      l.find? (isBlock s (s.buf c).dev (s.buf c).blockno) = some c) : Listed t l where
  ring := by rw [hnext, hprev]; exact h.ring
  all := h.all
  first c hc := by
    rw [isBlock_congr htag, (htag c).1, (htag c).2]
    exact (huse c hc).elim (h.first c) id

theorem find?_narrow {α : Type} {p q : α → Bool} {a : α} :
    ∀ {l : List α}, l.find? p = some a → q a = true → (∀ x, q x = true → p x = true) → l.find? q = some a
  | x :: l, h, ha, hpq => by
    rw [List.find?_cons] at h ⊢
    cases hp : p x with
    | true =>
      rw [hp] at h
      cases h
      rw [ha]
    | false =>
      have hq : q x = false := by
        cases hq : q x with
        | false => rfl
        | true => rw [hpq x hq] at hp; cases hp
      rw [hp] at h
      rw [hq]
      exact find?_narrow h ha hpq

variable {dev blockno : UInt32}

theorem Listed.recycle (h : Listed s l) (hmiss : l.find? (isBlock s dev blockno) = none)
    (hnext : t.next = s.next) (hprev : t.prev = s.prev)
    (hb : (t.buf b).dev = dev ∧ (t.buf b).blockno = blockno)
    (hother : ∀ c, c ≠ b → t.buf c = s.buf c) : Listed t l where
  ring := by rw [hnext, hprev]; exact h.ring
  all := h.all
  first c hc := by
    have hno : ∀ d, ¬ ((s.buf d).dev = dev ∧ (s.buf d).blockno = blockno) := fun d hd =>
      absurd (List.find?_eq_none.mp hmiss d (h.all d)) (by simpa [isBlock] using hd)
    by_cases hcb : c = b
    · subst hcb
      rw [hb.1, hb.2]
      -- no other buffer has the tag
      have honly : ∀ d, isBlock t dev blockno d = decide (d = c) := by
        intro d
        by_cases hd : d = c
        · subst hd
          simp [isBlock, hb]
        · have := hno d
          simp [isBlock, hother d hd, hd, this]
      have hfun : isBlock t dev blockno = fun d => decide (d = c) := funext honly
      rw [hfun, List.find?_eq_some_iff_append]
      obtain ⟨l₁, l₂, hl⟩ := List.append_of_mem (h.all c)
      refine ⟨by simp, l₁, l₂, hl, fun d hd => ?_⟩
      have hnd := h.ring.nodup
      rw [hl] at hnd
      have hne : d ≠ c := fun he => (List.nodup_append.mp hnd).2.2 d hd c List.mem_cons_self he
      simp [hne]
    · rw [hother c hcb] at hc ⊢
      refine find?_narrow (h.first c hc) ?_ fun d hd => ?_
      · simp [isBlock, hother c hcb]
      · by_cases hdb : d = b
        · subst hdb
          simp only [isBlock, hb, decide_eq_true_eq] at hd
          exact absurd ⟨hd.1.symm, hd.2.symm⟩ (hno c)
        · simpa [isBlock, hother d hdb] using hd

theorem Listed.relink (h : Listed s l) (hb : (s.buf b).InUse)
    (ht : t = { relink s b with buf := t.buf, use := t.use })
    (htag : ∀ c, (t.buf c).dev = (s.buf c).dev ∧ (t.buf c).blockno = (s.buf c).blockno)
    (huse : ∀ c, (t.buf c).InUse → (s.buf c).InUse) : ∃ l', Listed t l' := by
  obtain ⟨l₁, l₂, hl⟩ := List.append_of_mem (h.all b)
  have hring := h.ring
  rw [hl] at hring
  have hbn : b ∉ l₁ ++ l₂ := (List.nodup_cons.mp (List.nodup_middle.mp hring.nodup)).1
  refine ⟨b :: (l₁ ++ l₂), ?_, fun c => ?_, fun c hc => ?_⟩
  · have hpush := hring.unlink.pushFront hbn
    rw [ht]
    exact hpush
  · have hc := h.all c
    rw [hl] at hc
    simp only [List.mem_append, List.mem_cons] at hc ⊢
    tauto
  · rw [isBlock_congr htag, (htag c).1, (htag c).2]
    have hc' := huse c hc
    have hfirst := h.first c hc'
    by_cases hcb : c = b
    · subst hcb
      simp [isBlock]
    · -- `b` has another tag, so the search goes past it
      have hbt : isBlock s (s.buf c).dev (s.buf c).blockno b = false := by
        rw [isBlock, decide_eq_false_iff_not]
        rintro ⟨h1, h2⟩
        exact hcb (h.unique hb hc' h1 h2).symm
      rw [hl, List.find?_append, List.find?_cons, hbt] at hfirst
      rw [List.find?_cons, hbt, List.find?_append]
      exact hfirst

theorem iderw_some (ht : iderw s b = some t) : (s.buf b).dev = 1 ∧
      ((s.buf b).dirty = true ∧ t = { s.set b fun p => { p with dirty := false, valid := true } with
          disk := upd s.disk (s.buf b).blockno (s.buf b).data } ∨
        (s.buf b).dirty = false ∧
          t = s.set b fun p => { p with data := s.disk p.blockno, valid := true }) := by
  simp only [iderw] at ht
  split at ht
  · cases ht
  · split at ht
    · cases ht
    · rename_i hdev
      split at ht
      · cases ht
      · refine ⟨not_not.mp hdev, ?_⟩
        split at ht
        case isTrue hd => cases ht; exact .inl ⟨hd, rfl⟩
        case isFalse hd => cases ht; exact .inr ⟨by simpa using hd, rfl⟩

/-! ## The users -/

section

variable [Fintype H]

variable {h : H} {u : Use}

theorem Coherent.inUse (hs : Coherent s m) (hu : s.use h = some u) : (s.buf u.buf).InUse := by
  refine .inr (.inr ?_)
  rw [hs.count, Finset.card_pos]
  exact ⟨h, by simp [Uses, hu]⟩

theorem Coherent.lock_eq (hs : Coherent s m) (hu : s.use h = some u)
    (hl : u.stage.Locked) : (s.buf u.buf).lock = some h := (hs.lock u.buf h).mpr ⟨u, hu, rfl, hl⟩

theorem Coherent.one_copy (hs : Coherent s m) {b c : Fin NBUF} (hb : (s.buf b).valid = true)
    (hc : (s.buf c).InUse) (hdev : (s.buf c).dev = 1)
    (hno : (s.buf c).blockno = (s.buf b).blockno) : c = b := by
  obtain ⟨l, hl⟩ := hs.listed
  exact hl.unique hc (.inl hb) (hdev.trans (hs.dev b hb).symm) hno

theorem Coherent.data_eq (hs : Coherent s m) (hu : s.use h = some u)
    (hlock : (s.buf u.buf).lock = none ∨ (s.buf u.buf).lock = some h) (hst : u.stage ≠ .changed)
    (hv : (s.buf u.buf).valid = true) : (s.buf u.buf).data = m (s.buf u.buf).blockno := by
  refine hs.data u.buf hv fun k v hkv hvb hch => ?_
  have hk := hs.lock_eq hkv (.inr (.inr hch))
  rw [hvb] at hk
  obtain hn | hh := hlock
  · rw [hn] at hk
    cases hk
  · rw [hh] at hk
    cases hk
    rw [hu] at hkv
    cases hkv
    exact hst hch

theorem Coherent.disk_eq (hs : Coherent s m) {b : Fin NBUF} (hd : (s.buf b).dirty = false)
    (hother : ∀ c, c ≠ b → (s.buf c).dirty = true → (s.buf c).blockno ≠ (s.buf b).blockno) :
    s.disk (s.buf b).blockno = m (s.buf b).blockno := by
  refine hs.disk _ fun c hc => hother c ?_ hc
  rintro rfl
  rw [hd] at hc
  cases hc

theorem Coherent.reads (hs : Coherent s m) (hu : s.use h = some u)
    (hst : u.stage = .reads) : (s.buf u.buf).data = m u.blockno := by
  rw [← (hs.tag h u hu).2]
  exact hs.data_eq hu (.inr (hs.lock_eq hu (.inr (.inl hst)))) (by rw [hst]; nofun)
    (hs.ready h u hu (.inl hst))

/-- What a user may do to its buffer when it goes on to the stage `g`. -/
structure StageStep (s : Sys H) (m : Contents) (h : H) (u : Use) (g : Stage) (q : Buf H)
    (disk : UInt32 → Block) (m' : Contents) : Prop where
  tag : q.dev = (s.buf u.buf).dev ∧ q.blockno = (s.buf u.buf).blockno
  refcnt : q.refcnt = (s.buf u.buf).refcnt
  free : (s.buf u.buf).lock = none ∨ (s.buf u.buf).lock = some h
  lock : q.lock = some h ∧ g.Locked ∨ q.lock = none ∧ ¬ g.Locked
  valid : (s.buf u.buf).valid = true ∨ g = .reads ∨ g = .changed → q.valid = true
  dirty : q.dirty = true → q.valid = true
  dev : q.valid = true → q.dev = 1
  data : q.valid = true → g ≠ .changed → q.data = m' q.blockno
  others : ∀ n, n ≠ q.blockno → disk n = s.disk n
  clean : q.dirty = false → (∀ b, b ≠ u.buf → (s.buf b).dirty = true → (s.buf b).blockno ≠ q.blockno) →
    disk q.blockno = m' q.blockno
  map : ∀ n, n ≠ q.blockno → m' n = m n
  write : m' = m ∨ q.valid = true

theorem Coherent.keep (hs : Coherent s m) (hu : s.use h = some u) {g : Stage}
    {q : Buf H} (hlock : (s.buf u.buf).lock = none ∨ (s.buf u.buf).lock = some h)
    (hst : u.stage ≠ .changed) (hq : q = { s.buf u.buf with lock := q.lock })
    (hg : q.lock = some h ∧ g.Locked ∨ q.lock = none ∧ ¬ g.Locked)
    (hv : g = .reads ∨ g = .changed → (s.buf u.buf).valid = true) :
    StageStep s m h u g q s.disk m := by
  have hd : q.dirty = (s.buf u.buf).dirty := by rw [hq]
  have hval : q.valid = (s.buf u.buf).valid := by rw [hq]
  have hno : q.blockno = (s.buf u.buf).blockno := by rw [hq]
  have hdev : q.dev = (s.buf u.buf).dev := by rw [hq]
  have hdata : q.data = (s.buf u.buf).data := by rw [hq]
  constructor
  · exact ⟨hdev, hno⟩
  · rw [hq]
  · exact hlock
  · exact hg
  · rw [hval]
    exact fun h => h.elim id hv
  · rw [hd, hval]
    exact hs.dirty u.buf
  · rw [hval, hdev]
    exact hs.dev u.buf
  · intro hvq _
    rw [hdata, hno]
    exact hs.data_eq hu hlock hst (hval ▸ hvq)
  · exact fun _ _ => rfl
  · rw [hd, hno]
    exact hs.disk_eq
  · exact fun _ _ => rfl
  · exact .inl rfl

end

variable [DecidableEq H] [Fintype H]

theorem card_uses (use : H → Option Use) (h : H) (u : Option Use) (b : Fin NBUF) :
    (Finset.univ.filter fun k => Uses b (upd use h u k)).card + (if Uses b (use h) then 1 else 0) =
      (Finset.univ.filter fun k => Uses b (use k)).card + (if Uses b u then 1 else 0) :=
  card_filter_upd (Uses b) use h u

variable {h : H} {u : Use}

section

variable (hs : Coherent s m) (hu : s.use h = some u)

include hs hu

theorem Coherent.stage {g : Stage}
    {q : Buf H} {disk : UInt32 → Block} {m' : Contents} (hq : StageStep s m h u g q disk m') :
    Coherent { s with
      buf := upd s.buf u.buf q, disk := disk, use := upd s.use h (some { u with stage := g }) } m' := by
  have hbin := hs.inUse hu
  have htag : ∀ c, (upd s.buf u.buf q c).dev = (s.buf c).dev ∧
      (upd s.buf u.buf q c).blockno = (s.buf c).blockno := by
    intro c
    by_cases hc : c = u.buf
    · rw [hc, upd_same]
      exact hq.tag
    · rw [upd_ne _ _ hc]
      exact ⟨rfl, rfl⟩
  refine ⟨?_, fun b => ?_, fun k v hv => ?_, fun b k => ?_, fun k v hv hst => ?_, fun b hd => ?_,
    fun b hv => ?_, fun b hv hun => ?_, fun n hn => ?_⟩
  · -- list
    obtain ⟨l, hl⟩ := hs.listed
    refine ⟨l, hl.same rfl rfl htag fun c hc => .inl ?_⟩
    by_cases hcb : c = u.buf
    · exact hcb ▸ hbin
    · simpa [upd_ne _ _ hcb] using hc
  · -- count
    have hcard := card_uses s.use h (some { u with stage := g }) b
    have hsame : Uses b (some { u with stage := g }) ↔ Uses b (s.use h) := by simp [Uses, hu]
    simp only [hsame] at hcard
    have href : (upd s.buf u.buf q b).refcnt = (s.buf b).refcnt := by
      by_cases hb : b = u.buf
      · rw [hb, upd_same, hq.refcnt]
      · rw [upd_ne _ _ hb]
    dsimp only
    rw [href, hs.count b]
    omega
  · -- tag
    by_cases hk : k = h
    · subst hk
      simp only [upd_same, Option.some.injEq] at hv
      subst hv
      exact ⟨(htag u.buf).1.trans (hs.tag k u hu).1, (htag u.buf).2.trans (hs.tag k u hu).2⟩
    · simp only [upd_ne _ _ hk] at hv
      exact ⟨(htag v.buf).1.trans (hs.tag k v hv).1, (htag v.buf).2.trans (hs.tag k v hv).2⟩
  · -- lock
    have hold := hs.lock b k
    have hfree := hq.free
    have hlock := hq.lock
    by_cases hk : k = h
    · subst hk
      by_cases hb : b = u.buf
      · subst hb
        simp only [upd_same]
        grind
      · simp only [upd_ne _ _ hb, upd_same, Option.some.injEq]
        grind
    · by_cases hb : b = u.buf
      · subst hb
        simp only [upd_same, upd_ne _ _ hk]
        grind
      · simp only [upd_ne _ _ hb, upd_ne _ _ hk]
        exact hold
  · -- ready
    by_cases hk : k = h
    · subst hk
      simp only [upd_same, Option.some.injEq] at hv
      subst hv
      simp only [upd_same]
      exact hq.valid (.inr hst)
    · simp only [upd_ne _ _ hk] at hv
      have hold := hs.ready k v hv hst
      by_cases hb : v.buf = u.buf
      · simp only [hb, upd_same] at hold ⊢
        exact hq.valid (.inl hold)
      · simpa only [upd_ne _ _ hb] using hold
  · -- dirty
    by_cases hb : b = u.buf
    · subst hb
      simp only [upd_same] at hd ⊢
      exact hq.dirty hd
    · simp only [upd_ne _ _ hb] at hd ⊢
      exact hs.dirty b hd
  · -- dev
    by_cases hb : b = u.buf
    · subst hb
      simp only [upd_same] at hv ⊢
      exact hq.dev hv
    · simp only [upd_ne _ _ hb] at hv ⊢
      exact hs.dev b hv
  · -- data
    by_cases hb : b = u.buf
    · subst hb
      simp only [upd_same] at hv ⊢
      exact hq.data hv (hun h { u with stage := g } (upd_same _ _ _) rfl)
    · simp only [upd_ne _ _ hb] at hv ⊢
      have hold := hs.data b hv fun k v hkv hvb => by
        have hkh : k ≠ h := by
          rintro rfl
          rw [hu] at hkv
          cases hkv
          exact hb hvb.symm
        exact hun k v ((upd_ne _ _ hkh).trans hkv) hvb
      rw [hold]
      obtain rfl | hqv := hq.write
      · rfl
      · refine (hq.map _ fun he => hb ?_).symm
        have hdev := hq.dev hqv
        rw [hq.tag.1] at hdev
        exact (hs.one_copy hv hbin hdev (hq.tag.2.symm.trans he.symm)).symm
  · -- disk
    by_cases hnq : n = q.blockno
    · subst hnq
      have hclean : q.dirty = false := by
        cases hqd : q.dirty with
        | false => rfl
        | true => simpa using hn u.buf (by simpa using hqd)
      refine hq.clean hclean fun b hb hd => ?_
      simpa [upd_ne _ _ hb] using hn b (by simpa [upd_ne _ _ hb] using hd)
    · change disk n = m' n
      rw [hq.others n hnq, hq.map n hnq]
      refine hs.disk n fun b hd => ?_
      by_cases hb : b = u.buf
      · subst hb
        rw [← hq.tag.2]
        exact fun he => hnq he.symm
      · simpa [upd_ne _ _ hb] using hn b (by simpa [upd_ne _ _ hb] using hd)

theorem acquire_coherent
    (hst : u.stage = .wants) (ht : acquire s h u = some t) : Coherent t m := by
  rw [acquire] at ht
  split at ht
  case isTrue hfree =>
    cases ht
    exact hs.stage hu (hs.keep hu (.inl hfree) (by rw [hst]; nofun) rfl (.inl ⟨rfl, .inl rfl⟩) nofun)
  case isFalse => cases ht

theorem bread_coherent
    (hst : u.stage = .held) (ht : bread s h u = some t) : Coherent t m := by
  have hlock := hs.lock_eq hu (by rw [hst]; exact .inl rfl)
  have hnc : u.stage ≠ .changed := by rw [hst]; nofun
  rw [bread] at ht
  obtain ⟨s', hs', rfl⟩ := Option.map_eq_some_iff.mp ht
  split at hs'
  case isTrue hv =>
    cases hs'
    have hq := hs.keep hu (g := .reads) (q := s.buf u.buf) (.inr hlock) hnc rfl
      (.inl ⟨hlock, .inr (.inl rfl)⟩) fun _ => hv
    have := hs.stage hu hq
    rwa [upd_eq_self] at this
  case isFalse hv =>
    have hnd : (s.buf u.buf).dirty = false := by
      cases hd : (s.buf u.buf).dirty with
      | false => rfl
      | true => exact absurd (hs.dirty _ hd) hv
    obtain ⟨hdev, ⟨hd, _⟩ | ⟨_, rfl⟩⟩ := iderw_some hs'
    · rw [hnd] at hd
      cases hd
    · -- no other buffer holds a newer copy of the block
      have hdisk : s.disk (s.buf u.buf).blockno = m (s.buf u.buf).blockno := by
        refine hs.disk_eq hnd fun c hc hcd hno => hc ?_
        exact (hs.one_copy (hs.dirty c hcd) (hs.inUse hu) hdev hno.symm).symm
      refine hs.stage hu (g := .reads) ⟨⟨rfl, rfl⟩, rfl, .inr hlock, .inl ⟨hlock, .inr (.inl rfl)⟩,
        fun _ => rfl, fun _ => rfl, fun _ => hdev, fun _ _ => hdisk, fun _ _ => rfl,
        fun _ _ => hdisk, fun _ _ => rfl, .inl rfl⟩

theorem modify_coherent
    (hst : u.stage = .reads ∨ u.stage = .changed) (data : Block) : Coherent (modify s h u data) m := by
  have hlock := hs.lock_eq hu (.inr hst)
  have hv := hs.ready h u hu hst
  exact hs.stage hu (g := .changed) ⟨⟨rfl, rfl⟩, rfl, .inr hlock, .inl ⟨hlock, .inr (.inr rfl)⟩,
    fun _ => hv, fun _ => hv, fun _ => hs.dev _ hv, fun _ h => absurd rfl h, fun _ _ => rfl,
    hs.disk_eq, fun _ _ => rfl, .inl rfl⟩

theorem logWrite_coherent
    (hst : u.stage = .reads ∨ u.stage = .changed) :
    Coherent (logWrite s h u) (upd m u.blockno (s.buf u.buf).data) := by
  have hlock := hs.lock_eq hu (.inr hst)
  have hv := hs.ready h u hu hst
  rw [← (hs.tag h u hu).2]
  exact hs.stage hu (g := .reads) ⟨⟨rfl, rfl⟩, rfl, .inr hlock, .inl ⟨hlock, .inr (.inl rfl)⟩,
    fun _ => hv, fun _ => hv, fun _ => hs.dev _ hv, fun _ _ => (upd_same _ _ _).symm, fun _ _ => rfl,
    nofun, fun _ hn => upd_ne _ _ hn, .inr hv⟩

theorem bwrite_coherent
    (hst : u.stage = .reads ∨ u.stage = .changed) (ht : bwrite s h u = some t) :
    Coherent t (upd m u.blockno (s.buf u.buf).data) := by
  have hlock := hs.lock_eq hu (.inr hst)
  have hv := hs.ready h u hu hst
  have hmap : upd m u.blockno (s.buf u.buf).data = upd m (s.buf u.buf).blockno (s.buf u.buf).data := by
    rw [(hs.tag h u hu).2]
  obtain ⟨s', hs', rfl⟩ := Option.map_eq_some_iff.mp ht
  rw [hmap]
  obtain ⟨hdev, ⟨_, rfl⟩ | ⟨hd, _⟩⟩ := iderw_some hs'
  · have hq : StageStep s m h u .reads { s.buf u.buf with dirty := false, valid := true }
        (upd s.disk (s.buf u.buf).blockno (s.buf u.buf).data)
        (upd m (s.buf u.buf).blockno (s.buf u.buf).data) :=
      ⟨⟨rfl, rfl⟩, rfl, .inr hlock, .inl ⟨hlock, .inr (.inl rfl)⟩, fun _ => rfl, nofun,
        fun _ => hs.dev _ hv, fun _ _ => (upd_same _ _ _).symm, fun _ hn => upd_ne _ _ hn,
        fun _ _ => (upd_same _ _ _).trans (upd_same _ _ _).symm, fun _ hn => upd_ne _ _ hn, .inr rfl⟩
    simpa [Sys.set, Sys.setUse] using hs.stage hu hq
  · simp [Sys.set] at hd

theorem unlock_coherent
    (hst : u.stage = .reads) : Coherent (unlock s h u) m := by
  have hlock := hs.lock_eq hu (by rw [hst]; exact .inr (.inl rfl))
  exact hs.stage hu (hs.keep hu (.inr hlock) (by rw [hst]; nofun) rfl
    (.inr ⟨rfl, by simp [Stage.Locked]⟩) nofun)

end

/-! ## Coming and going -/

theorem Coherent.recount (hs : Coherent s m) {o : Option Use} (hlist : ∃ l, Listed t l)
    (hbuf : ∀ c, t.buf c = { s.buf c with refcnt := (t.buf c).refcnt })
    (huse : t.use = upd s.use h o) (hdisk : t.disk = s.disk)
    (hcount : ∀ c, (t.buf c).refcnt + (if Uses c (s.use h) then 1 else 0) =
      (s.buf c).refcnt + (if Uses c o then 1 else 0))
    (hold : ∀ u, s.use h = some u → ¬ u.stage.Locked)
    (hnew : ∀ u, o = some u → ¬ u.stage.Locked ∧
      (s.buf u.buf).dev = u.dev ∧ (s.buf u.buf).blockno = u.blockno) : Coherent t m := by
  have hb : ∀ c, (t.buf c).valid = (s.buf c).valid ∧ (t.buf c).dirty = (s.buf c).dirty ∧
      (t.buf c).dev = (s.buf c).dev ∧ (t.buf c).blockno = (s.buf c).blockno ∧
      (t.buf c).lock = (s.buf c).lock ∧ (t.buf c).data = (s.buf c).data := fun c => by
    rw [hbuf c]
    exact ⟨rfl, rfl, rfl, rfl, rfl, rfl⟩
  have hlocked : ∀ k v, v.stage.Locked → (t.use k = some v ↔ s.use k = some v) := by
    intro k v hv
    rw [huse]
    by_cases hk : k = h
    · subst hk
      rw [upd_same]
      exact ⟨fun ho => absurd hv (hnew v ho).1, fun ho => absurd hv (hold v ho)⟩
    · rw [upd_ne _ _ hk]
  refine ⟨hlist, fun c => ?_, fun k v hv => ?_, fun c k => ?_, fun k v hv hst => ?_, fun c => ?_,
    fun c => ?_, fun c hv hun => ?_, fun n hn => ?_⟩
  · have hcard := card_uses s.use h o c
    have h1 := hcount c
    rw [hs.count c] at h1
    rw [huse]
    omega
  · rw [(hb _).2.2.1, (hb _).2.2.2.1]
    rw [huse] at hv
    by_cases hk : k = h
    · subst hk
      rw [upd_same] at hv
      exact (hnew v hv).2
    · rw [upd_ne _ _ hk] at hv
      exact hs.tag k v hv
  · rw [(hb c).2.2.2.2.1, hs.lock c k]
    constructor
    · rintro ⟨v, hv, hvb, hl⟩
      exact ⟨v, (hlocked k v hl).mpr hv, hvb, hl⟩
    · rintro ⟨v, hv, hvb, hl⟩
      exact ⟨v, (hlocked k v hl).mp hv, hvb, hl⟩
  · rw [(hb _).1]
    exact hs.ready k v ((hlocked k v (.inr hst)).mp hv) hst
  · rw [(hb c).1, (hb c).2.1]
    exact hs.dirty c
  · rw [(hb c).1, (hb c).2.2.1]
    exact hs.dev c
  · rw [(hb c).1] at hv
    rw [(hb c).2.2.2.2.2, (hb c).2.2.2.1]
    refine hs.data c hv fun k v hkv hvb hch => ?_
    exact hun k v ((hlocked k v (.inr (.inr hch))).mpr hkv) hvb hch
  · rw [hdisk]
    refine hs.disk n fun c hd => ?_
    rw [← (hb c).2.2.2.1]
    exact hn c (by rw [(hb c).2.1]; exact hd)

theorem Coherent.recycle (hs : Coherent s m) (hl : Listed s l) (hu : s.use h = none) (hmiss : l.find? (isBlock s dev blockno) = none)
    (hfree : (s.buf b).refcnt = 0 ∧ (s.buf b).dirty = false) : Coherent ((s.set b fun p => { p with
      dev := dev, blockno := blockno, valid := false, dirty := false, refcnt := 1 }).setUse h
        (some ⟨b, dev, blockno, .wants⟩)) m := by
  have hnouse : ∀ k v, s.use k = some v → v.buf ≠ b := by
    rintro k v hv rfl
    have := hs.count v.buf
    rw [hfree.1, eq_comm, Finset.card_eq_zero] at this
    have hk : k ∈ Finset.univ.filter fun h => Uses v.buf (s.use h) := by simp [Uses, hv]
    rw [this] at hk
    simp at hk
  generalize ht : Sys.setUse (H := H) _ h _ = t
  have hbb : t.buf b = { s.buf b with
      dev := dev, blockno := blockno, valid := false, dirty := false, refcnt := 1 } := by
    rw [← ht]
    simp [Sys.set, Sys.setUse]
  have hother : ∀ c, c ≠ b → t.buf c = s.buf c := fun c hc => by
    rw [← ht]
    simp [Sys.set, Sys.setUse, hc]
  have huse : t.use = upd s.use h (some ⟨b, dev, blockno, .wants⟩) := by rw [← ht]; rfl
  have hdisk : t.disk = s.disk := by rw [← ht]; rfl
  refine ⟨⟨l, hl.recycle hmiss (by rw [← ht]; rfl) (by rw [← ht]; rfl) (by rw [hbb]; exact ⟨rfl, rfl⟩)
    hother⟩, fun c => ?_, fun k v hv => ?_, fun c k => ?_, fun k v hv hst => ?_, fun c => ?_,
    fun c => ?_, fun c hv hun => ?_, fun n hn => ?_⟩
  · have hcard := card_uses s.use h (some ⟨b, dev, blockno, .wants⟩) c
    have h0 : ¬ Uses c (s.use h) := by simp [Uses, hu]
    rw [if_neg h0, ← hs.count c] at hcard
    rw [huse]
    by_cases hc : c = b
    · subst hc
      rw [if_pos (by simp [Uses]), hfree.1] at hcard
      rw [hbb]
      dsimp only
      omega
    · rw [if_neg (by simpa [Uses] using fun he => hc he.symm)] at hcard
      rw [hother c hc]
      omega
  · rw [huse] at hv
    by_cases hk : k = h
    · subst hk
      rw [upd_same] at hv
      cases hv
      rw [hbb]
      exact ⟨rfl, rfl⟩
    · rw [upd_ne _ _ hk] at hv
      rw [hother _ (hnouse k v hv)]
      exact hs.tag k v hv
  · have hlk : (t.buf c).lock = (s.buf c).lock := by
      by_cases hc : c = b
      · subst hc
        rw [hbb]
      · rw [hother c hc]
    rw [hlk, hs.lock c k, huse]
    by_cases hk : k = h
    · subst hk
      simp [hu, Stage.Locked]
    · rw [upd_ne _ _ hk]
  · rw [huse] at hv
    by_cases hk : k = h
    · subst hk
      rw [upd_same] at hv
      cases hv
      simp at hst
    · rw [upd_ne _ _ hk] at hv
      rw [hother _ (hnouse k v hv)]
      exact hs.ready k v hv hst
  · by_cases hc : c = b
    · subst hc
      rw [hbb]
      rintro ⟨⟩
    · rw [hother c hc]
      exact hs.dirty c
  · by_cases hc : c = b
    · subst hc
      rw [hbb]
      rintro ⟨⟩
    · rw [hother c hc]
      exact hs.dev c
  · by_cases hc : c = b
    · subst hc
      rw [hbb] at hv
      cases hv
    · rw [hother c hc] at hv ⊢
      refine hs.data c hv fun k v hkv hvb => ?_
      have hk : k ≠ h := by
        rintro rfl
        rw [hu] at hkv
        cases hkv
      exact hun k v (by rw [huse, upd_ne _ _ hk]; exact hkv) hvb
  · rw [hdisk]
    refine hs.disk n fun c hd => ?_
    have hc : c ≠ b := by
      rintro rfl
      rw [hfree.2] at hd
      cases hd
    rw [← hother c hc]
    exact hn c (by rw [hother c hc]; exact hd)

theorem bget_coherent (hs : Coherent s m) (hu : s.use h = none)
    (ht : bget s h dev blockno = some t) : Coherent t m := by
  obtain ⟨l, hl⟩ := hs.listed
  rw [bget, hl.search] at ht
  split at ht
  case h_1 b hb =>
    cases ht
    have hfound : isBlock s dev blockno b = true := List.find?_some hb
    have hkey := of_decide_eq_true hfound
    refine hs.recount (h := h) (o := some ⟨b, dev, blockno, .wants⟩) ⟨l, ?_⟩ (fun c => ?_) rfl rfl
      (fun c => ?_) (by rw [hu]; rintro _ ⟨⟩) ?_
    · refine hl.same rfl rfl (fun c => ?_) fun c hc => ?_
      · by_cases hcb : c = b <;> simp [Sys.set, Sys.setUse, hcb]
      · by_cases hcb : c = b
        · subst hcb
          rw [hkey.1, hkey.2]
          exact .inr hb
        · exact .inl (by simpa [Sys.set, Sys.setUse, hcb] using hc)
    · by_cases hcb : c = b <;> simp [Sys.set, Sys.setUse, hcb]
    · by_cases hcb : c = b
      · subst hcb
        simp [Sys.set, Sys.setUse, Uses, hu]
      · have hbc : ¬ b = c := fun he => hcb he.symm
        simp [Sys.set, Sys.setUse, Uses, hu, hcb, hbc]
    · rintro u ⟨⟩
      exact ⟨by simp [Stage.Locked], hkey⟩
  case h_2 hmiss =>
    obtain ⟨b, hb, rfl⟩ := Option.map_eq_some_iff.mp ht
    exact hs.recycle hl hu hmiss (hl.search_free hb)

theorem release_coherent (hs : Coherent s m) (hu : s.use h = some u)
    (hst : u.stage = .leaves) : Coherent (release s h u) m := by
  obtain ⟨l, hl⟩ := hs.listed
  have hin := hs.inUse hu
  have hpos : 0 < (s.buf u.buf).refcnt := by
    rw [hs.count, Finset.card_pos]
    exact ⟨h, by simp [Uses, hu]⟩
  have htag : ∀ c, (upd s.buf u.buf { s.buf u.buf with refcnt := (s.buf u.buf).refcnt - 1 } c).dev =
      (s.buf c).dev ∧ (upd s.buf u.buf { s.buf u.buf with refcnt := (s.buf u.buf).refcnt - 1 }
        c).blockno = (s.buf c).blockno := fun c => by
    by_cases hc : c = u.buf <;> simp [hc]
  have huse : ∀ c, (upd s.buf u.buf { s.buf u.buf with refcnt := (s.buf u.buf).refcnt - 1 }
      c).InUse → (s.buf c).InUse := fun c hc => by
    by_cases hcb : c = u.buf
    · exact hcb ▸ hin
    · simpa [hcb] using hc
  have hrest : ∀ t : Sys H, (∃ l, Listed t l) →
      t.buf = upd s.buf u.buf { s.buf u.buf with refcnt := (s.buf u.buf).refcnt - 1 } →
      t.use = upd s.use h none → t.disk = s.disk → Coherent t m := by
    intro t hlist hbuf huse' hdisk
    refine hs.recount (h := h) (o := none) hlist (fun c => ?_) huse' hdisk (fun c => ?_)
      (fun v hv => ?_) (by rintro _ ⟨⟩)
    · rw [hbuf]
      by_cases hc : c = u.buf <;> simp [hc]
    · rw [hbuf]
      by_cases hc : c = u.buf
      · subst hc
        simp [Uses, hu]
        omega
      · have huc : ¬ u.buf = c := fun he => hc he.symm
        simp [Uses, hu, hc, huc]
    · rw [hu] at hv
      cases hv
      simp [hst, Stage.Locked]
  simp only [release]
  split
  case isTrue => exact hrest _ (hl.relink hin rfl htag huse) rfl rfl rfl
  case isFalse => exact hrest _ ⟨l, hl.same rfl rfl htag fun c hc => .inl (huse c hc)⟩ rfl rfl rfl

/-! ## Runs -/

theorem step_coherent {x y : Sys H × Contents} {e : H × Event}
    (hstep : withHistory step note x e = some y) (hx : Coherent x.1 x.2) : Coherent y.1 y.2 := by
  obtain ⟨hst, hn⟩ := withHistory_some hstep
  obtain ⟨s, m⟩ := x
  obtain ⟨t, m'⟩ := y
  obtain ⟨h, e⟩ := e
  dsimp only at hst hn hx ⊢
  subst hn
  cases hu : s.use h with
  | none =>
    cases e <;> simp only [step, hu, note] at hst ⊢
    case bget dev blockno => exact bget_coherent hx hu hst
    all_goals cases hst
  | some u =>
    cases e <;> cases hg : u.stage <;> simp only [step, hu, hg, note] at hst ⊢
    case acquire.wants => exact acquire_coherent hx hu hg hst
    case bread.held => exact bread_coherent hx hu hg hst
    case modify.reads data => cases hst; exact modify_coherent hx hu (.inl hg) data
    case modify.changed data => cases hst; exact modify_coherent hx hu (.inr hg) data
    case logWrite.reads => cases hst; exact logWrite_coherent hx hu (.inl hg)
    case logWrite.changed => cases hst; exact logWrite_coherent hx hu (.inr hg)
    case bwrite.reads => exact bwrite_coherent hx hu (.inl hg) hst
    case bwrite.changed => exact bwrite_coherent hx hu (.inr hg) hst
    case unlock.reads => cases hst; exact unlock_coherent hx hu hg
    case release.leaves => cases hst; exact release_coherent hx hu hg
    all_goals cases hst

theorem binit_ring : ∃ l, IsRing binit.1 binit.2 l ∧ ∀ b : Fin NBUF, b ∈ l := by
  have hfold : ∀ (bs l : List (Fin NBUF)) (p : Pointers (Fin NBUF) × Pointers (Fin NBUF)),
      IsRing p.1 p.2 l → (bs ++ l).Nodup →
        IsRing (bs.foldl (fun p b => pushFront p.1 p.2 b) p).1
          (bs.foldl (fun p b => pushFront p.1 p.2 b) p).2 (bs.reverse ++ l) := by
    intro bs
    induction bs with
    | nil => exact fun l p hp _ => hp
    | cons b bs ih =>
      intro l p hp hnd
      rw [List.cons_append, List.nodup_cons] at hnd
      have hb : b ∉ l := fun hm => hnd.1 (List.mem_append_right bs hm)
      have := ih (b :: l) (pushFront p.1 p.2 b) (hp.pushFront hb) (List.nodup_middle.mpr
        (List.nodup_cons.mpr hnd))
      rwa [List.reverse_cons, List.append_assoc]
  refine ⟨(List.finRange NBUF).reverse ++ [], hfold _ [] _ ⟨List.nodup_nil, rfl, rfl⟩ ?_, fun b => ?_⟩
  · rw [List.append_nil]
    exact List.nodup_finRange NBUF
  · simp

omit [DecidableEq H] in
theorem boot_coherent (disk : UInt32 → Block) (disksize : UInt32) :
    Coherent (boot H disk disksize) disk := by
  obtain ⟨l, hring, hall⟩ := binit_ring
  refine ⟨⟨l, hring, hall, ?_⟩, fun b => ?_, nofun, fun b h => ?_, nofun, nofun, nofun, nofun,
    fun _ _ => rfl⟩
  · intro b hb
    simp [boot, Buf.InUse] at hb
  · simp [boot, Uses]
  · simp [boot]

/-- What the rest of the kernel relies on: the cache and the disk are a map. -/
structure Refines (s : Sys H) (m : Contents) : Prop where
  /-- `bread` returns what was last written to the block. -/
  bread : ∀ h t, step s (h, .bread) = some t → ∃ u, t.use h = some u ∧
    (t.buf u.buf).blockno = u.blockno ∧ (t.buf u.buf).data = m u.blockno
  /-- Who has not changed a buffer since sees the same. -/
  reads : ∀ h u, s.use h = some u → u.stage = .reads → (s.buf u.buf).data = m u.blockno
  /-- No two buffers that are valid, dirty or referenced have the same tag. -/
  unique : ∀ b c, b ≠ c → (s.buf b).InUse → (s.buf c).InUse →
    ((s.buf b).dev, (s.buf b).blockno) ≠ ((s.buf c).dev, (s.buf c).blockno)
  /-- A buffer that is dirty or referenced is not recycled. -/
  pinned : ∀ e t, step s e = some t → ∀ b, (s.buf b).dirty = true ∨ 0 < (s.buf b).refcnt →
    (t.buf b).dev = (s.buf b).dev ∧ (t.buf b).blockno = (s.buf b).blockno
  /-- The list holds each buffer exactly once. -/
  list : ∃ l : List (Fin NBUF), IsRing s.next s.prev l ∧ ∀ b, l.count b = 1

/-- The tag of `b` is the same in `s` and `t`. -/
def SameTag (s t : Sys H) (b : Fin NBUF) : Prop :=
  (t.buf b).dev = (s.buf b).dev ∧ (t.buf b).blockno = (s.buf b).blockno

omit [DecidableEq H] [Fintype H] in
theorem sameTag_of_upd {q : Buf H} (ht : t.buf = upd s.buf c q)
    (hq : q.dev = (s.buf c).dev ∧ q.blockno = (s.buf c).blockno) (b : Fin NBUF) : SameTag s t b := by
  rw [SameTag, ht]
  by_cases hb : b = c
  · subst hb
    rwa [upd_same]
  · rw [upd_ne _ _ hb]
    exact ⟨rfl, rfl⟩

omit [DecidableEq H] [Fintype H] in
theorem iderw_sameTag (ht : iderw s c = some t) (b : Fin NBUF) : SameTag s t b := by
  obtain ⟨_, ⟨_, rfl⟩ | ⟨_, rfl⟩⟩ := iderw_some ht
  · exact sameTag_of_upd rfl (by exact ⟨rfl, rfl⟩) b
  · exact sameTag_of_upd rfl (by exact ⟨rfl, rfl⟩) b

omit [DecidableEq H] [Fintype H] in
theorem bwrite_sameTag (ht : iderw (s.set c fun p => { p with dirty := true }) c = some t) (b : Fin NBUF) :
    SameTag s t b := by
  have h₁ : SameTag s (s.set c fun p => { p with dirty := true }) b := sameTag_of_upd rfl (by exact ⟨rfl, rfl⟩) b
  have h₂ := iderw_sameTag ht b
  exact ⟨h₂.1.trans h₁.1, h₂.2.trans h₁.2⟩

omit [Fintype H] in
theorem step_tag {e : Event} (hl : Listed s l) (ht : step s (h, e) = some t)
    (b : Fin NBUF) : SameTag s t b ∨ (s.buf b).refcnt = 0 ∧ (s.buf b).dirty = false := by
  cases hu : s.use h with
  | none =>
    cases e <;> simp only [step, hu] at ht
    case bget dev blockno =>
      rw [bget] at ht
      split at ht
      case h_1 c _ =>
        cases ht
        exact .inl (sameTag_of_upd rfl (by exact ⟨rfl, rfl⟩) b)
      case h_2 =>
        obtain ⟨c, hc, rfl⟩ := Option.map_eq_some_iff.mp ht
        by_cases hb : b = c
        · subst hb
          exact .inr (hl.search_free hc)
        · exact .inl ⟨by simp [Sys.set, Sys.setUse, hb], by simp [Sys.set, Sys.setUse, hb]⟩
    all_goals cases ht
  | some u =>
    left
    cases e <;> cases hg : u.stage <;> simp only [step, hu, hg] at ht
    case acquire.wants =>
      rw [acquire] at ht
      split at ht
      · cases ht; exact sameTag_of_upd rfl (by exact ⟨rfl, rfl⟩) b
      · cases ht
    case bread.held =>
      obtain ⟨s', hs', rfl⟩ := Option.map_eq_some_iff.mp ht
      split at hs'
      · cases hs'; exact ⟨rfl, rfl⟩
      · exact iderw_sameTag hs' b
    case modify.reads data => cases ht; exact sameTag_of_upd rfl (by exact ⟨rfl, rfl⟩) b
    case modify.changed data => cases ht; exact sameTag_of_upd rfl (by exact ⟨rfl, rfl⟩) b
    case logWrite.reads => cases ht; exact sameTag_of_upd rfl (by exact ⟨rfl, rfl⟩) b
    case logWrite.changed => cases ht; exact sameTag_of_upd rfl (by exact ⟨rfl, rfl⟩) b
    case bwrite.reads =>
      obtain ⟨s', hs', rfl⟩ := Option.map_eq_some_iff.mp ht
      exact bwrite_sameTag hs' b
    case bwrite.changed =>
      obtain ⟨s', hs', rfl⟩ := Option.map_eq_some_iff.mp ht
      exact bwrite_sameTag hs' b
    case unlock.reads => cases ht; exact sameTag_of_upd rfl (by exact ⟨rfl, rfl⟩) b
    case release.leaves =>
      cases ht
      simp only [release]
      split
      · exact sameTag_of_upd rfl (by exact ⟨rfl, rfl⟩) b
      · exact sameTag_of_upd rfl (by exact ⟨rfl, rfl⟩) b
    all_goals cases ht

theorem Coherent.refines (hs : Coherent s m) : Refines s m where
  bread h t ht := by
    cases hu : s.use h with
    | none => simp [step, hu] at ht
    | some u =>
      have hg : u.stage = .held := by
        cases hg : u.stage <;> simp [step, hu, hg] at ht ⊢
      simp only [step, hu, hg] at ht
      have hc := bread_coherent hs hu hg ht
      have hut : t.use h = some { u with stage := .reads } := by
        obtain ⟨s', _, rfl⟩ := Option.map_eq_some_iff.mp ht
        exact upd_same _ _ _
      exact ⟨_, hut, (hc.tag h _ hut).2, hc.reads hut rfl⟩
  reads h u hu hst := hs.reads hu hst
  unique b c hbc hb hc htag := by
    obtain ⟨l, hl⟩ := hs.listed
    obtain ⟨hdev, hno⟩ := Prod.mk.inj htag
    exact hbc (hl.unique hb hc hdev hno)
  pinned e t ht b hb := by
    obtain ⟨l, hl⟩ := hs.listed
    refine (step_tag hl ht b).resolve_right fun hfree => ?_
    rw [hfree.1, hfree.2] at hb
    simp at hb
  list := by
    obtain ⟨l, hl⟩ := hs.listed
    exact ⟨l, hl.ring, fun b => List.count_eq_one_of_mem hl.ring.nodup (hl.all b)⟩

/-- In every run the cache and the disk are a map from block numbers to contents. -/
theorem bcache_refines (disk : UInt32 → Block) (disksize : UInt32) {es : List (H × Event)}
    {x : Sys H × Contents} (hrun : run (withHistory step note) (boot H disk disksize, disk) es = some x) :
    Refines x.1 x.2 := by
  have hx : Coherent x.1 x.2 := run_invariant (P := fun x => Coherent x.1 x.2)
    (fun _ _ _ => step_coherent) hrun (boot_coherent disk disksize)
  exact hx.refines

def writeThenRead (data : Block) : List (Fin 2 × Event) :=
  [(0, .bget 1 5), (0, .acquire), (0, .bread), (0, .modify data), (0, .logWrite), (0, .unlock),
    (0, .release), (1, .bget 1 5), (1, .acquire), (1, .bread)]

theorem bcache_refines_writeThenRead :
    ∃ x, run (withHistory step note) (boot (Fin 2) (fun _ => zeroBlock) 1000, fun _ => zeroBlock)
        (writeThenRead fun _ => 7) = some x ∧
      (x.1.use 1).map Use.stage = some .reads ∧ Refines x.1 x.2 := by
  have h : (run (withHistory step note) (boot (Fin 2) (fun _ => zeroBlock) 1000, fun _ => zeroBlock)
      (writeThenRead fun _ => 7)).map (fun x => (x.1.use 1).map Use.stage) = some (some .reads) := by
    decide +kernel
  obtain ⟨x, hx, hst⟩ := Option.map_eq_some_iff.mp h
  exact ⟨x, hx, hst, bcache_refines (fun _ => zeroBlock) 1000 hx⟩

end Xv6.Bcache
