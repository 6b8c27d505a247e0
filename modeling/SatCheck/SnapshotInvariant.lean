import SatCheck.Snapshot
/-!
# Rolling back

Going back to a backing page restores each page from its first copy from there on, or leaves
it when there is none.  `Keeps` says which content that is; the invariant is that for every
snapshot it is the content at the time the snapshot was taken.
-/

namespace SatCheck.Snapshotter

open HashTable

variable {P : Type} {s s' : Snapshotter P} {saved : List (Nat → P)} {a b k page p : Nat} {v w : P}

/-! ## Copies -/

/-- Backing page `b` is the first copy of page `p` from backing page `a` on. -/
structure FirstCopy (s : Snapshotter P) (a p b : Nat) : Prop where
  ge : a ≤ b
  lt : b < s.lastBackingPage
  base : s.basePtrOfPage b = p
  first : ∀ c, a ≤ c → c < b → s.basePtrOfPage c ≠ p

/-- There is no copy of `p` among the backing pages from `a` to `b`. -/
def NoCopy (s : Snapshotter P) (a b p : Nat) : Prop :=
  ∀ c, a ≤ c → c < b → s.basePtrOfPage c ≠ p

/-- Going back to backing page `a` gives page `p` the content `v`. -/
structure Keeps (s : Snapshotter P) (a p : Nat) (v : P) : Prop where
  copy : ∀ b, s.FirstCopy a p b → s.backingStore b = v
  memory : s.NoCopy a s.lastBackingPage p → s.memory p = v

theorem exists_firstCopy (h : ¬ s.NoCopy a s.lastBackingPage p) : ∃ b, s.FirstCopy a p b := by
  unfold NoCopy at h
  push Not at h
  have hex : ∃ c, a ≤ c ∧ c < s.lastBackingPage ∧ s.basePtrOfPage c = p := h
  classical
  obtain ⟨hge, hlt, hbase⟩ := Nat.find_spec hex
  refine ⟨Nat.find hex, hge, hlt, hbase, ?_⟩
  intro c hc hlt' heq
  exact Nat.find_min hex hlt' ⟨hc, by omega, heq⟩

/-- An earlier start has the same first copy when the pages before hold none. -/
theorem FirstCopy.earlier (h : s.FirstCopy k p b) (hak : a ≤ k) (hnone : s.NoCopy a k p) :
    s.FirstCopy a p b := by
  refine ⟨hak.trans h.ge, h.lt, h.base, ?_⟩
  intro c hc hlt
  by_cases hck : c < k
  · exact hnone c hc hck
  · exact h.first c (by omega) hlt

theorem Keeps.eq (ha : s.Keeps a p v) (hk : s.Keeps k p w) (hak : a ≤ k)
    (hnone : s.NoCopy a k p) : v = w := by
  by_cases hcopy : s.NoCopy k s.lastBackingPage p
  · rw [← hk.memory hcopy]
    apply (ha.memory _).symm
    intro c hc hlt
    by_cases hck : c < k
    · exact hnone c hc hck
    · exact hcopy c (by omega) hlt
  · obtain ⟨b, hb⟩ := exists_firstCopy hcopy
    rw [← hk.copy b hb]
    exact (ha.copy b (hb.earlier hak hnone)).symm

/-! ## The invariant -/

/-- Going back to a snapshot restores what was saved. -/
structure Kept (s : Snapshotter P) (saved : List (Nat → P)) : Prop where
  count : s.lastSnapShot = saved.length
  snapshots : s.lastSnapShot ≤ s.maxSnapShots
  pages : s.lastBackingPage ≤ s.maxBackingPages
  mono : ∀ i j, i ≤ j → j < saved.length → s.firstBackingPage i ≤ s.firstBackingPage j
  first_le : ∀ j < saved.length, s.firstBackingPage j ≤ s.lastBackingPage
  keeps : ∀ j content, saved[j]? = some content → ∀ p, s.Registered p →
    s.Keeps (s.firstBackingPage j) p (content p)
  registered : ∀ p, s.readOnly p = true → s.Registered p

/-- The pages of the regions that are not protected are those copied since the last snapshot,
each once. -/
structure Inv (s : Snapshotter P) (saved : List (Nat → P)) : Prop extends Kept s saved where
  unprotected : saved = [] → ∀ p, s.readOnly p = false
  copied : ∀ k, saved.length = k + 1 → ∀ p, s.Registered p → s.readOnly p = false →
    ¬ s.NoCopy (s.firstBackingPage k) s.lastBackingPage p
  writable : ∀ k, saved.length = k + 1 → ∀ b, s.firstBackingPage k ≤ b → b < s.lastBackingPage →
    s.readOnly (s.basePtrOfPage b) = false
  once : ∀ k, saved.length = k + 1 → ∀ b < s.lastBackingPage,
    s.NoCopy (s.firstBackingPage k) b (s.basePtrOfPage b)

theorem inv_new (memory : Nat → P) (regions : List MemoryRegion) (backing_pages snapshots : Nat) :
    Inv (new memory regions backing_pages snapshots) [] where
  count := rfl
  snapshots := Nat.zero_le _
  pages := Nat.zero_le _
  mono := by simp
  first_le := by simp
  keeps := by simp
  registered := by simp [new]
  unprotected := fun _ _ => rfl
  copied := by simp
  writable := by simp
  once := by simp

theorem Inv.copied_all (h : Inv s saved) {j : Nat} (hj : j < saved.length) (hp : s.Registered p)
    (hro : s.readOnly p = false) :
    ¬ s.NoCopy (s.firstBackingPage j) s.lastBackingPage p := by
  obtain ⟨k, hk⟩ : ∃ k, saved.length = k + 1 := ⟨saved.length - 1, by omega⟩
  intro hnone
  apply h.copied k hk p hp hro
  intro c hc
  exact hnone c ((h.mono j k (by omega) (by omega)).trans hc)

theorem Inv.setMemory (h : Inv s saved) {memory : Nat → P}
    (hmem : ∀ p, s.readOnly p = true → memory p = s.memory p) :
    Inv { s with memory := memory } saved := by
  refine { h with keeps := ?_, copied := h.copied, once := h.once }
  intro j content hj p hp
  have hkeeps := h.keeps j content hj p hp
  have hlt : j < saved.length := (List.getElem?_eq_some_iff.mp hj).1
  refine ⟨fun b hb => hkeeps.copy b ⟨hb.ge, hb.lt, hb.base, hb.first⟩, ?_⟩
  intro hnone
  cases hro : s.readOnly p with
  | false => exact absurd hnone (h.copied_all hlt hp hro)
  | true => exact (hmem p hro).trans (hkeeps.memory hnone)

/-! ## Writes and snapshots -/

theorem Inv.mprot_handle_pf (h : Inv s saved) {addr : Nat} (hro : s.readOnly addr = true)
    (hrun : s.mprot_handle_pf addr = some s') :
    Inv s' saved ∧ s'.readOnly addr = false := by
  unfold Snapshotter.mprot_handle_pf at hrun
  split_ifs at hrun with hlimit
  obtain rfl := Option.some_inj.mp hrun
  have hpages := h.pages
  have hbase : ∀ c, c < s.lastBackingPage →
      Function.update s.basePtrOfPage s.lastBackingPage addr c = s.basePtrOfPage c :=
    fun c hc => Function.update_of_ne hc.ne _ _
  refine ⟨⟨⟨h.count, h.snapshots, ?_, h.mono,
    fun j hj => (h.first_le j hj).trans (Nat.le_succ _), ?_, ?_⟩, ?_, ?_, ?_, ?_⟩,
    Function.update_self addr false s.readOnly⟩
  · show s.lastBackingPage + 1 ≤ s.maxBackingPages
    omega
  · intro j content hj p hp
    have hkeeps := h.keeps j content hj p hp
    refine ⟨?_, ?_⟩
    · rintro b ⟨hge, hlt, hb, hfirst⟩
      have hlt : b < s.lastBackingPage + 1 := hlt
      have hnone : s.NoCopy (s.firstBackingPage j) b p := by
        intro c hc hcb
        have hne : Function.update s.basePtrOfPage s.lastBackingPage addr c ≠ p := hfirst c hc hcb
        rwa [hbase c (by omega)] at hne
      by_cases hlast : b = s.lastBackingPage
      · subst hlast
        have hp : addr = p := (Function.update_self _ _ _).symm.trans hb
        rw [← hkeeps.memory hnone, ← hp]
        exact Function.update_self _ _ _
      · rw [← hkeeps.copy b ⟨hge, by omega, (hbase b (by omega)).symm.trans hb, hnone⟩]
        exact Function.update_of_ne hlast _ _
    · intro hnone
      apply hkeeps.memory
      intro c hc hlt
      have hne : Function.update s.basePtrOfPage s.lastBackingPage addr c ≠ p :=
        hnone c hc (hlt.trans (Nat.lt_succ_self _))
      rwa [hbase c hlt] at hne
  · intro p hp
    apply h.registered p
    by_cases heq : p = addr
    · rw [heq]
      exact hro
    · exact (Function.update_of_ne heq _ _).symm.trans hp
  · intro hnil
    rw [h.unprotected hnil] at hro
    exact absurd hro (by simp)
  · intro k hk p hp hfalse hnone
    by_cases heq : p = addr
    · exact hnone s.lastBackingPage (h.first_le k (by omega)) (Nat.lt_succ_self _)
        ((Function.update_self _ _ _).trans heq.symm)
    · apply h.copied k hk p hp ((Function.update_of_ne heq _ _).symm.trans hfalse)
      intro c hc hlt
      have hne : Function.update s.basePtrOfPage s.lastBackingPage addr c ≠ p :=
        hnone c hc (hlt.trans (Nat.lt_succ_self _))
      rwa [hbase c hlt] at hne
  · intro k hk b hge hlt
    show Function.update s.readOnly addr false
      (Function.update s.basePtrOfPage s.lastBackingPage addr b) = false
    have hlt : b < s.lastBackingPage + 1 := hlt
    by_cases hlast : b = s.lastBackingPage
    · rw [hlast, Function.update_self, Function.update_self]
    · rw [hbase b (by omega), Function.update_apply]
      split_ifs
      · rfl
      · exact h.writable k hk b hge (by omega)
  · intro k hk b hlt c hc hcb
    have hlt : b < s.lastBackingPage + 1 := hlt
    show Function.update s.basePtrOfPage s.lastBackingPage addr c ≠
      Function.update s.basePtrOfPage s.lastBackingPage addr b
    rw [hbase c (by omega)]
    by_cases hlast : b = s.lastBackingPage
    · rw [hlast, Function.update_self]
      intro heq
      have := h.writable k hk c hc (by omega)
      rw [heq, hro] at this
      exact absurd this (by simp)
    · rw [hbase b (by omega)]
      exact h.once k hk b (by omega) c hc hcb

theorem Inv.write (h : Inv s saved) {addr : Nat} {content : P}
    (hrun : s.write addr content = some s') : Inv s' saved := by
  unfold Snapshotter.write at hrun
  obtain ⟨s₁, hfault, hset⟩ := Option.bind_eq_some_iff.mp hrun
  obtain rfl := Option.some_inj.mp hset
  have hs₁ : Inv s₁ saved ∧ s₁.readOnly addr = false := by
    unfold fault at hfault
    split_ifs at hfault with hro
    · exact h.mprot_handle_pf hro hfault
    · obtain rfl := Option.some_inj.mp hfault
      exact ⟨h, by simpa using hro⟩
  apply hs₁.1.setMemory
  intro p hp
  apply Function.update_of_ne
  rintro rfl
  rw [hs₁.2] at hp
  exact absurd hp (by simp)

/-- After `mprotect` the pages that are not read-only are those of no region. -/
theorem not_registered_of_protect (hp : (s.protect true).readOnly p = false) :
    ¬ s.Registered p := by
  intro hreg
  have hfalse : (if s.Registered p then true else s.readOnly p) = false := hp
  rw [if_pos hreg] at hfalse
  exact absurd hfalse (by simp)

theorem Kept.registered_of_protect (h : Kept s saved) (hp : (s.protect true).readOnly p = true) :
    s.Registered p := by
  by_contra hreg
  have htrue : (if s.Registered p then true else s.readOnly p) = true := hp
  rw [if_neg hreg] at htrue
  exact hreg (h.registered p htrue)

/-- The state after `mprot_take_snapshot`. -/
def taken (s : Snapshotter P) : Snapshotter P :=
  { s.protect true with
    lastSnapShot := s.lastSnapShot + 1
    firstBackingPage := Function.update s.firstBackingPage s.lastSnapShot s.lastBackingPage }

theorem mprot_take_snapshot_eq (h : s.lastSnapShot ≠ s.maxSnapShots) :
    s.mprot_take_snapshot = some (s.taken, s.lastSnapShot) := if_neg h

theorem Kept.taken (h : Kept s saved) (hlimit : s.lastSnapShot ≠ s.maxSnapShots) :
    Inv s.taken (saved ++ [s.memory]) := by
  have hcount := h.count
  have hsnapshots := h.snapshots
  have hold : ∀ j < saved.length, s.taken.firstBackingPage j = s.firstBackingPage j :=
    fun j hj => Function.update_of_ne (by omega) _ _
  have hnew : s.taken.firstBackingPage saved.length = s.lastBackingPage := by
    rw [← hcount]
    exact Function.update_self _ _ _
  have hlength : (saved ++ [s.memory]).length = saved.length + 1 := by simp
  refine ⟨⟨?_, ?_, h.pages, ?_, ?_, ?_, ?_⟩, ?_, ?_, ?_, ?_⟩
  · rw [hlength, ← hcount]
    rfl
  · show s.lastSnapShot + 1 ≤ s.maxSnapShots
    omega
  · intro i j hij hj
    by_cases hjlt : j < saved.length
    · rw [hold i (by omega), hold j hjlt]
      exact h.mono i j hij hjlt
    · have hjeq : j = saved.length := by omega
      rw [hjeq, hnew]
      by_cases hilt : i < saved.length
      · rw [hold i hilt]
        exact h.first_le i hilt
      · rw [show i = saved.length by omega, hnew]
  · intro j hj
    show s.taken.firstBackingPage j ≤ s.lastBackingPage
    by_cases hjlt : j < saved.length
    · rw [hold j hjlt]
      exact h.first_le j hjlt
    · rw [show j = saved.length by omega, hnew]
  · intro j content hj p hp
    rw [List.getElem?_append] at hj
    split_ifs at hj with hjlt
    · rw [hold j hjlt]
      have hkeeps := h.keeps j content hj p hp
      exact ⟨fun b hb => hkeeps.copy b ⟨hb.ge, hb.lt, hb.base, hb.first⟩, hkeeps.memory⟩
    · have hj0 : j - saved.length = 0 := by
        have := (List.getElem?_eq_some_iff.mp hj).1
        simpa using this
      rw [hj0] at hj
      obtain rfl := Option.some_inj.mp hj
      rw [show j = saved.length by omega, hnew]
      refine ⟨?_, fun _ => rfl⟩
      intro b hb
      exact absurd hb.lt (not_lt.mpr hb.ge)
  · intro p hp
    exact h.registered_of_protect hp
  · simp
  · intro k hk p hp hfalse
    exact absurd hp (not_registered_of_protect (s := s) hfalse)
  · intro k hk b hge hlt
    rw [show k = saved.length by omega, hnew] at hge
    exact absurd hlt (not_lt.mpr hge)
  · intro k hk b hlt c hc hcb
    rw [show k = saved.length by omega, hnew] at hc
    have hlt : b < s.lastBackingPage := hlt
    omega

/-! ## The two loops -/

/-- The memory after the backing pages from `first` to `page` have been gone through. -/
structure Restored (s : Snapshotter P) (first page : Nat) (memory : Nat → P) : Prop where
  copied : ∀ q b, b < page → s.FirstCopy first q b → memory q = s.backingStore b
  other : ∀ q, s.NoCopy first page q → memory q = s.memory q

variable {memory : Nat → P} {first fuel : Nat}

theorem restored_start : Restored s first first s.memory where
  copied := fun _ _ hb hcopy => absurd hb (not_lt.mpr hcopy.ge)
  other := fun _ _ => rfl

theorem Restored.copy (h : Restored s first page memory) (hge : first ≤ page)
    (hnone : s.NoCopy first page (s.basePtrOfPage page)) :
    Restored s first (page + 1)
      (Function.update memory (s.basePtrOfPage page) (s.backingStore page)) where
  copied := by
    intro q b hb hcopy
    by_cases hbp : b = page
    · subst hbp
      rw [hcopy.base, Function.update_self]
    · have hq : q ≠ s.basePtrOfPage page := by
        rw [← hcopy.base]
        exact hnone b hcopy.ge (by omega)
      rw [Function.update_of_ne hq]
      exact h.copied q b (by omega) hcopy
  other := by
    intro q hq
    have hne : q ≠ s.basePtrOfPage page := (hq page hge (Nat.lt_succ_self _)).symm
    rw [Function.update_of_ne hne]
    exact h.other q fun c hc hlt => hq c hc (by omega)

theorem Restored.skip (h : Restored s first page memory) {c : Nat} (hc : first ≤ c)
    (hlt : c < page) (hbase : s.basePtrOfPage c = s.basePtrOfPage page) :
    Restored s first (page + 1) memory where
  copied := by
    intro q b hb hcopy
    by_cases hbp : b = page
    · subst hbp
      exact absurd (hbase.trans hcopy.base) (hcopy.first c hc hlt)
    · exact h.copied q b (by omega) hcopy
  other := fun q hq => h.other q fun c hc hlt => hq c hc (by omega)

theorem Restored.keeps (h : Restored s first s.lastBackingPage memory)
    (hkeeps : s.Keeps first p v) : memory p = v := by
  by_cases hnone : s.NoCopy first s.lastBackingPage p
  · rw [h.other p hnone, hkeeps.memory hnone]
  · obtain ⟨b, hb⟩ := exists_firstCopy hnone
    rw [h.copied p b hb.lt hb, hkeeps.copy b hb]

def withMemory (s : Snapshotter P) (memory : Nat → P) : Snapshotter P :=
  { s with memory := memory }

theorem write_of_writable {addr : Nat} {content : P} (h : s.readOnly addr = false) :
    (s.withMemory memory).write addr content =
      some (s.withMemory (Function.update memory addr content)) := by
  unfold Snapshotter.write fault
  rw [show (s.withMemory memory).readOnly addr = false from h]
  rfl

private theorem copyBack_succ (hlt : page < s.lastBackingPage)
    (hwrite : s.readOnly (s.basePtrOfPage page) = false) :
    copyBack (fuel + 1) page (s.withMemory memory) = copyBack fuel (page + 1)
      (s.withMemory (Function.update memory (s.basePtrOfPage page) (s.backingStore page))) := by
  rw [copyBack]
  apply (if_pos hlt).trans
  show (do
    let s ← (s.withMemory memory).write (s.basePtrOfPage page) (s.backingStore page)
    _) = _
  rw [write_of_writable hwrite]
  rfl

theorem copyBack_eq
    (hwrite : ∀ b, first ≤ b → b < s.lastBackingPage → s.readOnly (s.basePtrOfPage b) = false)
    (honce : ∀ b < s.lastBackingPage, s.NoCopy first b (s.basePtrOfPage b))
    (h : Restored s first page memory) (hge : first ≤ page) (hle : page ≤ s.lastBackingPage)
    (hfuel : s.lastBackingPage < page + fuel) :
    ∃ memory', copyBack fuel page (s.withMemory memory) = some (s.withMemory memory') ∧
      Restored s first s.lastBackingPage memory' := by
  induction fuel generalizing page memory with
  | zero => omega
  | succ fuel ih =>
    by_cases hlt : page < s.lastBackingPage
    · rw [copyBack_succ hlt (hwrite page hge hlt)]
      exact ih (h.copy hge (honce page hlt)) (by omega) (by omega) (by omega)
    · have heq : page = s.lastBackingPage := by omega
      refine ⟨memory, ?_, heq ▸ h⟩
      rw [copyBack]
      exact if_neg hlt

theorem pageOps_lawful : pageOps.Lawful where
  equivalence := by
    refine ⟨?_, ?_, ?_⟩ <;> simp [pageOps]
  hash a b h := by
    have heq : a = b := by simpa [pageOps] using h
    rw [heq]

theorem sameKey_pageOps {a b : Nat} : sameKey pageOps a b = true ↔ a = b := by
  by_cases hb : b = 0
  · rw [hb, sameKey_zero]
  · rw [sameKey_of_ne hb]
    constructor
    · intro h
      simpa [pageOps] using h.2
    · rintro rfl
      exact ⟨hb, pageOps_lawful.equivalence.refl a⟩

/-- The map has the pages whose copies from `first` on have been come past. -/
def Seen (s : Snapshotter P) (first page : Nat) (m : List (Nat × Fin 2)) : Prop :=
  ∀ q, (∃ e ∈ m, sameKey pageOps e.1 q = true) ↔
    ∃ c, first ≤ c ∧ c < page ∧ s.basePtrOfPage c = q

theorem Seen.skip {m : List (Nat × Fin 2)} (h : s.Seen first page m) {c : Nat} (hc : first ≤ c)
    (hclt : c < page) (hbase : s.basePtrOfPage c = s.basePtrOfPage page) :
    s.Seen first (page + 1) m := by
  intro q
  rw [h q]
  constructor
  · rintro ⟨d, hd, hdlt, hq⟩
    exact ⟨d, hd, by omega, hq⟩
  · rintro ⟨d, hd, hdlt, hq⟩
    by_cases hdp : d = page
    · exact ⟨c, hc, hclt, by rw [hbase, ← hdp, hq]⟩
    · exact ⟨d, hd, by omega, hq⟩

theorem Seen.put {m : List (Nat × Fin 2)} (h : s.Seen first page m) (hge : first ≤ page)
    (habsent : ∀ e ∈ m, sameKey pageOps e.1 (s.basePtrOfPage page) = false) :
    s.Seen first (page + 1) (AssocMap.put (sameKey pageOps) m (s.basePtrOfPage page) 1) := by
  intro q
  rw [AssocMap.put_of_absent habsent]
  constructor
  · rintro ⟨e, he, hsame⟩
    cases List.mem_append.mp he with
    | inl he =>
      obtain ⟨c, hc, hclt, hq⟩ := (h q).mp ⟨e, he, hsame⟩
      exact ⟨c, hc, by omega, hq⟩
    | inr he =>
      rw [List.mem_singleton.mp he, sameKey_pageOps] at hsame
      exact ⟨page, hge, by omega, hsame⟩
  · rintro ⟨c, hc, hclt, hq⟩
    by_cases hcp : c = page
    · refine ⟨(s.basePtrOfPage page, 1), by simp, ?_⟩
      rw [sameKey_pageOps, ← hcp, hq]
    · obtain ⟨e, he, hsame⟩ := (h q).mpr ⟨c, hc, by omega, hq⟩
      exact ⟨e, by simp [he], hsame⟩

theorem restore_eq
    (hwrite : ∀ b, first ≤ b → b < s.lastBackingPage → s.readOnly (s.basePtrOfPage b) = false)
    {duplicateMap : HashTable Nat (Fin 2)} {m : List (Nat × Fin 2)}
    (hmap : PutOnly pageOps duplicateMap m)
    (hseen : s.Seen first page m)
    (h : Restored s first page memory) (hge : first ≤ page) (hle : page ≤ s.lastBackingPage)
    (hfuel : s.lastBackingPage < page + fuel) :
    ∃ memory', restore fuel page duplicateMap (s.withMemory memory) =
        some (s.withMemory memory') ∧ Restored s first s.lastBackingPage memory' := by
  induction fuel generalizing page memory duplicateMap m with
  | zero => omega
  | succ fuel ih =>
    by_cases hlt : page < s.lastBackingPage
    · have hcontains := hmap.contains pageOps_lawful (s.basePtrOfPage page)
      cases hget : AssocMap.get (sameKey pageOps) m (s.basePtrOfPage page) with
      | some val =>
        obtain ⟨e, he, hsame, _⟩ :=
          (AssocMap.get_eq_some (sameKey_equivalence pageOps_lawful) hmap.stored.distinct).mp hget
        obtain ⟨c, hc, hclt, hbase⟩ := (hseen _).mp ⟨e, he, hsame⟩
        obtain ⟨memory', hrest, hrestored⟩ := ih hmap (hseen.skip hc hclt hbase)
          (h.skip hc hclt hbase) (by omega) (by omega) (by omega)
        refine ⟨memory', ?_, hrestored⟩
        rw [restore]
        apply (if_pos hlt).trans
        show (do let found ← duplicateMap.contains pageOps (s.basePtrOfPage page); _) = _
        rw [hcontains, hget]
        exact hrest
      | none =>
        have habsent := AssocMap.get_eq_none.mp hget
        obtain ⟨duplicateMap', hput, hmap'⟩ :=
          hmap.put pageOps_lawful (show (1 : Fin 2) ≠ 0 by decide)
        have hnone : s.NoCopy first page (s.basePtrOfPage page) := by
          intro c hc hclt hbase
          obtain ⟨e, he, hsame⟩ := (hseen _).mpr ⟨c, hc, hclt, hbase⟩
          rw [habsent e he] at hsame
          exact absurd hsame (by simp)
        obtain ⟨memory', hrest, hrestored⟩ := ih hmap' (hseen.put hge habsent)
          (h.copy hge hnone) (by omega) (by omega) (by omega)
        refine ⟨memory', ?_, hrestored⟩
        rw [restore]
        apply (if_pos hlt).trans
        show (do let found ← duplicateMap.contains pageOps (s.basePtrOfPage page); _) = _
        rw [hcontains, hget]
        show (do
          let duplicateMap ← duplicateMap.put pageOps (s.basePtrOfPage page) 1
          let s ← (s.withMemory memory).write (s.basePtrOfPage page) (s.backingStore page)
          restore fuel (page + 1) duplicateMap s) = _
        rw [hput, write_of_writable (hwrite page hge hlt)]
        exact hrest
    · have heq : page = s.lastBackingPage := by omega
      refine ⟨memory, ?_, heq ▸ h⟩
      rw [restore]
      exact if_neg hlt

/-! ## Rolling back -/

theorem Inv.copyBack (h : Inv s saved) (hk : saved.length = k + 1) :
    ∃ memory', s.copyBack (s.maxBackingPages + 1) (s.firstBackingPage k) =
        some (s.withMemory memory') ∧ Inv (s.withMemory memory') saved ∧
      ∀ content, saved[k]? = some content → ∀ p, s.Registered p → memory' p = content p := by
  have hle := h.first_le k (by omega)
  have hpages := h.pages
  obtain ⟨memory', hrun, hrestored⟩ := copyBack_eq
    (h.writable k hk) (h.once k hk) restored_start le_rfl hle
    (show _ < _ + (s.maxBackingPages + 1) by omega)
  refine ⟨memory', hrun, h.setMemory ?_, ?_⟩
  · intro p hp
    apply hrestored.other
    intro c hc hlt hbase
    have := h.writable k hk c hc hlt
    rw [hbase, hp] at this
    exact absurd this (by simp)
  · intro content hcontent p hp
    exact hrestored.keeps (h.keeps k content hcontent p hp)

/-- The general path: with every page writable the first copies are written back, and the
snapshot is taken again. -/
theorem Inv.restore (h : Inv s saved) (hk : k < saved.length) :
    ∃ memory', (s.protect false).restore (s.maxBackingPages + 1) (s.firstBackingPage k)
        (HashTable.new 1024 (1 / 2)) = some ((s.protect false).withMemory memory') ∧
      ∀ content, saved[k]? = some content → ∀ p, s.Registered p → memory' p = content p := by
  have hle := h.first_le k hk
  have hpages := h.pages
  have hwritable : ∀ p, (s.protect false).readOnly p = false := by
    intro p
    show (if s.Registered p then false else s.readOnly p) = false
    split_ifs with hreg
    · rfl
    · cases hro : s.readOnly p with
      | false => rfl
      | true => exact absurd (h.registered p hro) hreg
  obtain ⟨memory', hrun, hrestored⟩ := restore_eq (s := s.protect false) (fun b _ _ => hwritable _)
    (PutOnly.new (n := 8)) (m := []) (by intro q; constructor <;> simp; omega) restored_start
    le_rfl hle (show s.lastBackingPage < s.firstBackingPage k + (s.maxBackingPages + 1) by omega)
  refine ⟨memory', hrun, ?_⟩
  intro content hcontent p hp
  have hkeeps := h.keeps k content hcontent p hp
  apply hrestored.keeps (v := content p)
  exact ⟨fun b hb => hkeeps.copy b ⟨hb.ge, hb.lt, hb.base, hb.first⟩, hkeeps.memory⟩

def dropped (s : Snapshotter P) (k : Nat) (memory : Nat → P) : Snapshotter P :=
  { (s.protect false).withMemory memory with
    lastSnapShot := k
    lastBackingPage := s.firstBackingPage k }

/-- The earlier snapshots still keep their contents when the later copies are dropped. -/
theorem Inv.dropped (h : Inv s saved) (hk : k < saved.length) {memory : Nat → P}
    (hmem : ∀ content, saved[k]? = some content → ∀ p, s.Registered p → memory p = content p) :
    Kept (s.dropped k memory) (saved.take k) := by
  have hcount := h.count
  have hsnapshots := h.snapshots
  have hlength : (saved.take k).length = k := by
    rw [List.length_take]
    omega
  refine ⟨hlength.symm, ?_, (h.first_le k hk).trans h.pages, ?_, ?_, ?_, ?_⟩
  · show k ≤ s.maxSnapShots
    omega
  · intro i j hij hj
    exact h.mono i j hij (by omega)
  · intro j hj
    exact h.mono j k (by omega) hk
  · intro j content hj p hp
    have hjk : j < k := by
      have := (List.getElem?_eq_some_iff.mp hj).1
      omega
    rw [List.getElem?_take_of_lt hjk] at hj
    have hkeeps := h.keeps j content hj p hp
    have hfirst := h.mono j k hjk.le hk
    refine ⟨?_, ?_⟩
    · intro b hb
      have hlt : b < s.firstBackingPage k := hb.lt
      exact hkeeps.copy b ⟨hb.ge, hlt.trans_le (h.first_le k hk), hb.base, hb.first⟩
    · intro hnone
      obtain ⟨content', hcontent'⟩ : ∃ c, saved[k]? = some c :=
        ⟨_, List.getElem?_eq_getElem hk⟩
      have hsame := hkeeps.eq (h.keeps k content' hcontent' p hp) hfirst hnone
      exact (hmem content' hcontent' p hp).trans hsame.symm
  · intro p hp
    have hro : (if s.Registered p then false else s.readOnly p) = true := hp
    split_ifs at hro
    exact h.registered p hro

theorem Inv.congr (h : Inv s saved) {saved' : List (Nat → P)}
    (hlength : saved'.length = saved.length)
    (hsame : ∀ (j : Nat) (c c' : Nat → P), saved[j]? = some c → saved'[j]? = some c' →
      ∀ p, s.Registered p → c p = c' p) : Inv s saved' := by
  have hnil : saved' = [] → saved = [] := by
    rintro rfl
    exact List.length_eq_zero_iff.mp hlength.symm
  refine ⟨⟨hlength ▸ h.count, h.snapshots, h.pages, hlength ▸ h.mono, hlength ▸ h.first_le, ?_,
    h.registered⟩, fun h' => h.unprotected (hnil h'), hlength ▸ h.copied, hlength ▸ h.writable,
    hlength ▸ h.once⟩
  intro j c' hj p hp
  have hlt : j < saved.length := by
    rw [← hlength]
    exact (List.getElem?_eq_some_iff.mp hj).1
  have hc : saved[j]? = some saved[j] := List.getElem?_eq_getElem hlt
  rw [← hsame j _ c' hc hj p hp]
  exact h.keeps j _ hc p hp

theorem Inv.mprot_roll_back (h : Inv s saved) {content : Nat → P} (hk : saved[k]? = some content)
    (tuned : Bool) :
    ∃ s', s.mprot_roll_back k tuned = some s' ∧ Inv s' (saved.take (k + 1)) ∧
      (∀ p, s.Registered p → s'.memory p = content p) ∧
      s'.regionsToSnapShot = s.regionsToSnapShot := by
  have hlt : k < saved.length := (List.getElem?_eq_some_iff.mp hk).1
  have hcount := h.count
  unfold Snapshotter.mprot_roll_back
  by_cases hfast : tuned = true ∧ s.lastSnapShot = k + 1
  · rw [if_pos hfast]
    have hlength : saved.length = k + 1 := by omega
    obtain ⟨memory', hrun, hinv, hmem⟩ := h.copyBack hlength
    rw [List.take_of_length_le (by omega)]
    exact ⟨_, hrun, hinv, hmem content hk, rfl⟩
  · rw [if_neg hfast]
    obtain ⟨memory', hrun, hmem⟩ := h.restore hlt
    have hsnapshots := h.snapshots
    have hlimit : (s.dropped k memory').lastSnapShot ≠ (s.dropped k memory').maxSnapShots := by
      show k ≠ s.maxSnapShots
      omega
    have hinv := (h.dropped hlt hmem).taken hlimit
    refine ⟨(s.dropped k memory').taken, ?_, ?_, hmem content hk, rfl⟩
    · show ((s.protect false).restore (s.maxBackingPages + 1) (s.firstBackingPage k) _).bind _ = _
      rw [hrun]
      show ((s.dropped k memory').mprot_take_snapshot).bind _ = _
      rw [mprot_take_snapshot_eq hlimit]
      rfl
    · refine hinv.congr ?_ ?_
      · rw [List.length_append, List.length_take, List.length_take, List.length_singleton]
        omega
      · intro j c c' hj hj' p hp
        by_cases hjk : j < k
        · rw [List.getElem?_append_left (by rw [List.length_take]; omega)] at hj
          rw [List.getElem?_take_of_lt hjk] at hj
          rw [List.getElem?_take_of_lt (by omega), hj] at hj'
          rw [Option.some_inj.mp hj']
        · have hjle : j = k := by
            have := (List.getElem?_eq_some_iff.mp hj').1
            rw [List.length_take] at this
            omega
          subst hjle
          rw [List.getElem?_append_right (by rw [List.length_take]; omega)] at hj
          rw [List.getElem?_take_of_lt (by omega), hk] at hj'
          rw [List.length_take, Nat.min_eq_left hlt.le, Nat.sub_self] at hj
          rw [← Option.some_inj.mp hj', ← Option.some_inj.mp hj]
          exact hmem content hk p hp

/-! ## Runs -/

inductive Event (P : Type)
  | write (addr : Nat) (content : P)
  | take
  | rollBack (id : Nat) (tuned : Bool)

/-- An event, with the contents at the snapshots whose ids are still valid. -/
def event (s : Snapshotter P) (saved : List (Nat → P)) :
    Event P → Option (Snapshotter P × List (Nat → P))
  | .write addr content => (s.write addr content).map fun s => (s, saved)
  | .take => s.mprot_take_snapshot.map fun r => (r.1, saved ++ [s.memory])
  | .rollBack id tuned =>
      if id < saved.length then
        (s.mprot_roll_back id tuned).map fun s => (s, saved.take (id + 1))
      else none

def events (s : Snapshotter P) (saved : List (Nat → P)) :
    List (Event P) → Option (Snapshotter P × List (Nat → P))
  | [] => some (s, saved)
  | e :: es => do
      let (s, saved) ← s.event saved e
      s.events saved es

theorem Inv.event (h : Inv s saved) {e : Event P} {saved' : List (Nat → P)}
    (hrun : s.event saved e = some (s', saved')) : Inv s' saved' := by
  cases e with
  | write addr content =>
    obtain ⟨s₁, hwrite, heq⟩ := Option.map_eq_some_iff.mp hrun
    obtain ⟨rfl, rfl⟩ := Prod.mk.inj heq
    exact h.write hwrite
  | take =>
    obtain ⟨r, htake, heq⟩ := Option.map_eq_some_iff.mp hrun
    obtain ⟨rfl, rfl⟩ := Prod.mk.inj heq
    have hlimit : s.lastSnapShot ≠ s.maxSnapShots := by
      intro hlimit
      rw [show s.mprot_take_snapshot = none from if_pos hlimit] at htake
      exact absurd htake (by simp)
    rw [mprot_take_snapshot_eq hlimit] at htake
    rw [← Option.some_inj.mp htake]
    exact h.taken hlimit
  | rollBack id tuned =>
    have hrun : (if id < saved.length then
      (s.mprot_roll_back id tuned).map fun s => (s, saved.take (id + 1)) else none) =
        some (s', saved') := hrun
    split_ifs at hrun with hlt
    obtain ⟨s₁, hroll, heq⟩ := Option.map_eq_some_iff.mp hrun
    obtain ⟨rfl, rfl⟩ := Prod.mk.inj heq
    obtain ⟨s₂, hroll', hinv, _⟩ := h.mprot_roll_back (List.getElem?_eq_getElem hlt) tuned
    rw [← Option.some_inj.mp (hroll'.symm.trans hroll)]
    exact hinv

theorem Inv.events {es : List (Event P)} :
    ∀ {s : Snapshotter P} {saved : List (Nat → P)}, Inv s saved → ∀ {s' saved'},
      s.events saved es = some (s', saved') → Inv s' saved' := by
  induction es with
  | nil =>
    intro s saved h s' saved' hrun
    obtain ⟨rfl, rfl⟩ := Prod.mk.inj (Option.some_inj.mp hrun)
    exact h
  | cons e es ih =>
    intro s saved h s' saved' hrun
    obtain ⟨r, he, hes⟩ := Option.bind_eq_some_iff.mp hrun
    exact ih (h.event he) hes

/-- After any run, rolling back to a valid id restores the pages of the regions as they were
when the snapshot was taken, and so does rolling back further.  The next id is the number of
the valid ones. -/
theorem mprot_roll_back_restores (memory : Nat → P) (regions : List MemoryRegion)
    (backing_pages snapshots : Nat) (es : List (Event P))
    (hrun : (new memory regions backing_pages snapshots).events [] es = some (s, saved))
    {content : Nat → P} (hk : saved[k]? = some content) (tuned : Bool) :
    s.lastSnapShot = saved.length ∧ ∃ s', s.mprot_roll_back k tuned = some s' ∧
      (∀ page, s.Registered page → s'.memory page = content page) ∧
      ∀ j content', j ≤ k → saved[j]? = some content' → ∀ tuned', ∃ s'',
        s'.mprot_roll_back j tuned' = some s'' ∧
        ∀ page, s.Registered page → s''.memory page = content' page := by
  have h := (inv_new memory regions backing_pages snapshots).events hrun
  obtain ⟨s', hroll, hinv, hmem, hregions⟩ := h.mprot_roll_back hk tuned
  refine ⟨h.count, s', hroll, hmem, ?_⟩
  intro j content' hjk hj tuned'
  rw [← List.getElem?_take_of_lt (show j < k + 1 by omega)] at hj
  obtain ⟨s'', hroll', _, hmem', _⟩ := hinv.mprot_roll_back hj tuned'
  refine ⟨s'', hroll', ?_⟩
  intro page hpage
  apply hmem' page
  unfold Registered at hpage ⊢
  rwa [hregions]

/-- Two snapshots, a write behind each, and the first snapshot restored. -/
theorem mprot_roll_back_restores_two :
    ∃ s saved s', (new (fun page => page) [⟨4096, 2⟩] 10 10).events []
        [.take, .write 4096 7, .take, .write 8192 9] = some (s, saved) ∧
      s.mprot_roll_back 0 true = some s' ∧ s'.memory 4096 = 4096 ∧ s'.memory 8192 = 8192 := by
  have h := mprot_roll_back_restores (k := 0) (fun page => page) [⟨4096, 2⟩] 10 10
    [.take, .write 4096 7, .take, .write 8192 9] rfl rfl true
  obtain ⟨_, s', hroll, hmem, _⟩ := h
  exact ⟨_, _, s', rfl, hroll, hmem 4096 ⟨⟨4096, 2⟩, List.mem_singleton_self _, 0, by decide, rfl⟩,
    hmem 8192 ⟨⟨4096, 2⟩, List.mem_singleton_self _, 1, by decide, rfl⟩⟩

end SatCheck.Snapshotter
