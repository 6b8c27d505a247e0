import SatCheck.RecorderCursor
/-!
# Sites

Between two calls the point of a thread has a statement counter on top, and below it one
counter with a direction or an iteration for each branch and loop around.  A site is such
a point without its thread.
-/

namespace SatCheck

/-- A branch or a loop around a site: the counter of its record and the direction or the
iteration. -/
inductive Frame where
  | arm (n direction : Nat)
  | loop (n iteration : Nat)
  deriving DecidableEq, Repr

abbrev Path := List Frame

structure Site where
  path : Path
  n : Nat
  deriving DecidableEq, Repr

namespace Frame

def entries : Frame → List (ExecPointType × Nat)
  | arm n direction => [(.counter, n), (.branch, direction)]
  | loop n iteration => [(.counter, n), (.loop, iteration)]

@[simp] theorem length_entries (f : Frame) : f.entries.length = 2 := by cases f <;> rfl

theorem entries_injective : Function.Injective entries := by
  intro f g h
  cases f <;> cases g <;> simp_all [entries]

end Frame

namespace Path

def entries : Path → List (ExecPointType × Nat)
  | [] => []
  | f :: path => entries path ++ f.entries

def branches : Path → List Site
  | [] => []
  | .arm n _ :: path => ⟨path, n⟩ :: branches path
  | .loop _ _ :: path => branches path

def mergeable : Path → List Site
  | .arm n _ :: path => ⟨path, n⟩ :: mergeable path
  | _ => []

def loops : Path → List Site
  | [] => []
  | .arm _ _ :: path => loops path
  | .loop n _ :: path => ⟨path, n⟩ :: loops path

@[simp] theorem entries_nil : entries [] = [] := rfl

@[simp] theorem entries_cons (f : Frame) (path : Path) :
    entries (f :: path) = entries path ++ f.entries := rfl

@[simp] theorem entries_append (inner path : Path) :
    entries (inner ++ path) = entries path ++ entries inner := by
  induction inner with
  | nil => simp
  | cons f inner ih => simp [ih]

theorem entries_injective : Function.Injective entries := by
  intro path
  induction path with
  | nil =>
    intro path' h
    cases path' with
    | nil => rfl
    | cons f path' => cases f <;> simp [Frame.entries] at h
  | cons f path ih =>
    intro path' h
    cases path' with
    | nil => cases f <;> simp [Frame.entries] at h
    | cons f' path' =>
      obtain ⟨hpath, hf⟩ := List.append_inj' h (by simp)
      rw [ih hpath, Frame.entries_injective hf]

theorem mergeable_subset {path : Path} {b : Site} (h : b ∈ mergeable path) :
    b ∈ branches path := by
  induction path with
  | nil => simp [mergeable] at h
  | cons f path ih =>
    cases f with
    | arm n d =>
      rw [mergeable, List.mem_cons] at h
      rw [branches, List.mem_cons]
      exact h.imp_right ih
    | loop n i => simp [mergeable] at h

theorem exists_of_mem_branches {path : Path} {b : Site} (h : b ∈ branches path) :
    ∃ inner d, path = inner ++ .arm b.n d :: b.path := by
  induction path with
  | nil => simp [branches] at h
  | cons f path ih =>
    cases f with
    | arm n d =>
      rcases List.mem_cons.mp h with rfl | h
      · exact ⟨[], d, rfl⟩
      · obtain ⟨inner, d', rfl⟩ := ih h
        exact ⟨.arm n d :: inner, d', rfl⟩
    | loop n i =>
      obtain ⟨inner, d', rfl⟩ := ih h
      exact ⟨.loop n i :: inner, d', rfl⟩

theorem branches_subset {path : Path} {b c : Site} (h : b ∈ branches path)
    (hc : c ∈ branches b.path) : c ∈ branches path := by
  induction path with
  | nil => simp [branches] at h
  | cons f path ih =>
    cases f with
    | arm n d =>
      rcases List.mem_cons.mp h with rfl | h
      · exact List.mem_cons_of_mem _ hc
      · exact List.mem_cons_of_mem _ (ih h)
    | loop n i => exact ih h

theorem branches_of_loops {path : Path} {b l : Site} (h : l ∈ loops path)
    (hb : b ∈ branches l.path) : b ∈ branches path := by
  induction path with
  | nil => simp [loops] at h
  | cons f path ih =>
    cases f with
    | arm n d => exact List.mem_cons_of_mem _ (ih h)
    | loop n i =>
      rcases List.mem_cons.mp h with rfl | h
      · exact hb
      · exact ih h

theorem loops_of_loops {path : Path} {l m : Site} (h : l ∈ loops path)
    (hm : m ∈ loops l.path) : m ∈ loops path := by
  induction path with
  | nil => simp [loops] at h
  | cons f path ih =>
    cases f with
    | arm n d => exact ih h
    | loop n i =>
      rcases List.mem_cons.mp h with rfl | h
      · exact List.mem_cons_of_mem _ hm
      · exact List.mem_cons_of_mem _ (ih h)

theorem loops_subset {path : Path} {b l : Site} (h : b ∈ branches path)
    (hl : l ∈ loops b.path) : l ∈ loops path := by
  induction path with
  | nil => simp [branches] at h
  | cons f path ih =>
    cases f with
    | arm n d =>
      rcases List.mem_cons.mp h with rfl | h
      · exact hl
      · exact ih h
    | loop n i => exact List.mem_cons_of_mem _ (ih h)

end Path

def branchOf (tid : Nat) : Path → Option EPValue
  | [] => none
  | .arm n d :: path => some ⟨⟨tid, Path.entries path ++ [(.counter, n)]⟩, d⟩
  | .loop _ _ :: path => branchOf tid path

theorem branchOf_tid {tid : Nat} {path : Path} {branch : EPValue}
    (h : branchOf tid path = some branch) : branch.record.tid = tid := by
  induction path with
  | nil => simp [branchOf] at h
  | cons f path ih =>
    cases f with
    | arm n d =>
      obtain rfl := Option.some_inj.mp h
      rfl
    | loop n i => exact ih h

namespace Site

def ep (tid : Nat) (s : Site) : ExecPoint := ⟨tid, s.path.entries ++ [(.counter, s.n)]⟩

def start : Site := ⟨[], 0⟩

def next (s : Site) : Site := ⟨s.path, s.n + 1⟩

def arm (s : Site) (direction : Nat) : Site := ⟨.arm s.n direction :: s.path, 0⟩

def body (s : Site) : Site := ⟨.loop s.n 0 :: s.path, 0⟩

def iterate (s : Site) : Site :=
  match s.path with
  | .loop n i :: path => ⟨.loop n (i + 1) :: path, 0⟩
  | _ => s

def exitType (s : Site) : EventType :=
  match s.path with
  | .loop _ _ :: _ => .loopexit
  | _ => .nonlocaltrans

variable {tid tid' : Nat} {s s' : Site}

@[simp] theorem ep_tid : (s.ep tid).tid = tid := rfl

@[simp] theorem ep_inj : s.ep tid = s'.ep tid' ↔ tid = tid' ∧ s = s' := by
  constructor
  · intro h
    obtain ⟨htid, hpairs⟩ := ExecPoint.mk.inj h
    obtain ⟨hpath, hn⟩ := List.append_inj' hpairs rfl
    have hpath := Path.entries_injective hpath
    cases s
    cases s'
    simp_all
  · rintro ⟨rfl, rfl⟩
    rfl

@[simp] theorem ep_start : start.ep tid = ExecPoint.start tid := rfl

@[simp] theorem incrementTop_ep : (s.ep tid).incrementTop = s.next.ep tid := by
  simp [ep, next, ExecPoint.incrementTop]

theorem push_branch_ep (d : Nat) :
    ((s.ep tid).push .branch d).push .counter 0 = (s.arm d).ep tid := by
  simp [ep, arm, ExecPoint.push, Frame.entries]

theorem push_loop_ep : ((s.ep tid).push .loop 0).push .counter 0 = s.body.ep tid := by
  simp [ep, body, ExecPoint.push, Frame.entries]

@[simp] theorem branchOf_arm (d : Nat) : branchOf tid (s.arm d).path = some ⟨s.ep tid, d⟩ := rfl

@[simp] theorem branchOf_body : branchOf tid s.body.path = branchOf tid s.path := rfl

@[simp] theorem branchOf_next : branchOf tid s.next.path = branchOf tid s.path := rfl

@[simp] theorem branchOf_iterate : branchOf tid s.iterate.path = branchOf tid s.path := by
  unfold iterate
  split
  · rename_i h
    rw [h]
    rfl
  · rfl

theorem branches_eq {path : Path} {branch : EPValue} (h : branchOf tid path = some branch) :
    ∃ b : Site, branch.record = b.ep tid ∧ path.branches = b :: b.path.branches := by
  induction path with
  | nil => simp [branchOf] at h
  | cons f path ih =>
    cases f with
    | arm n d =>
      obtain rfl := Option.some_inj.mp h
      exact ⟨⟨path, n⟩, rfl, rfl⟩
    | loop n i => exact ih h

theorem branches_eq_nil {path : Path} (h : branchOf tid path = none) : path.branches = [] := by
  induction path with
  | nil => rfl
  | cons f path ih =>
    cases f with
    | arm n d => simp [branchOf] at h
    | loop n i => exact ih h

theorem branches_congr {path path' : Path} (h : branchOf tid path = branchOf tid path') :
    path.branches = path'.branches := by
  cases hb : branchOf tid path with
  | none => rw [branches_eq_nil hb, branches_eq_nil (h ▸ hb)]
  | some branch =>
    obtain ⟨b, hrecord, hpath⟩ := branches_eq hb
    obtain ⟨b', hrecord', hpath'⟩ := branches_eq (h ▸ hb)
    obtain ⟨-, rfl⟩ := ep_inj.mp (hrecord.symm.trans hrecord')
    rw [hpath, hpath']

theorem branchOf_ne (tid : Nat) {path : Path} {b : Site} (h : b ∈ path.branches) :
    branchOf tid b.path ≠ branchOf tid path := by
  intro heq
  have hlength : ∀ {path : Path}, b ∈ path.branches →
      b.path.branches.length < path.branches.length := by
    intro path hb
    induction path with
    | nil => simp [Path.branches] at hb
    | cons f path ih =>
      cases f with
      | arm n d =>
        rcases List.mem_cons.mp hb with rfl | hb
        · simp [Path.branches]
        · have := ih hb
          simp only [Path.branches, List.length_cons]
          omega
      | loop n i => exact ih hb
  have := hlength h
  rw [branches_congr heq] at this
  omega

theorem branchOf_ne_self {l : Site} {d : Nat} (h : l ∈ s.path.loops) :
    branchOf tid l.path ≠ some ⟨s.ep tid, d⟩ := by
  intro hbranch
  obtain ⟨b, hrecord, hpath⟩ := branches_eq hbranch
  obtain ⟨-, rfl⟩ := ep_inj.mp hrecord
  exact branchOf_ne tid
    (Path.branches_of_loops h (by rw [hpath]; exact List.mem_cons_self)) rfl

@[simp] theorem pop_ep : (s.ep tid).pop = ⟨tid, s.path.entries⟩ := by simp [ep, ExecPoint.pop]

@[simp] theorem getType_ep : (s.ep tid).getType = some .counter := by
  simp [ep, ExecPoint.getType]

theorem pop_arm {n d : Nat} {path : Path} :
    ExecPoint.pop ⟨tid, Path.entries (.arm n d :: path)⟩ = ep tid ⟨path, n⟩ := by
  simp [ep, ExecPoint.pop, Frame.entries]

theorem pop_loop {n i : Nat} {path : Path} :
    ExecPoint.pop ⟨tid, Path.entries (.loop n i :: path)⟩ = ep tid ⟨path, n⟩ := by
  simp [ep, ExecPoint.pop, Frame.entries]

theorem getSize_ep : (s.ep tid).getSize = 2 * s.path.length + 1 := by
  have hlength : ∀ path : Path, path.entries.length = 2 * path.length := by
    intro path
    induction path with
    | nil => rfl
    | cons f path ih =>
      rw [Path.entries_cons, List.length_append, ih, Frame.length_entries, List.length_cons]
      omega
  simp [ep, ExecPoint.getSize, hlength]

theorem iterate_ep {n i : Nat} {path : Path} (h : s.path = .loop n i :: path) :
    (s.ep tid).pop.incrementTop.push .counter 0 = s.iterate.ep tid := by
  rw [pop_ep]
  simp [iterate, h, ep, ExecPoint.incrementTop, ExecPoint.push, Frame.entries]

theorem directInLoop_ep : (if (s.ep tid).directInLoop then EventType.loopexit else .nonlocaltrans) =
    s.exitType := by
  obtain ⟨path, n⟩ := s
  unfold ExecPoint.directInLoop
  rw [pop_ep]
  cases path with
  | nil => rfl
  | cons f path => cases f <;> simp [ExecPoint.getType, Frame.entries, exitType]

theorem popToLoop_ep {l : Site} {loops : List Site} (h : s.path.loops = l :: loops) :
    (s.ep tid).popToLoop (s.ep tid).getSize = l.ep tid := by
  have hpop : ∀ (path : Path) (n k : Nat), path.loops = l :: loops → 2 * path.length ≤ k →
      ExecPoint.popToLoop k (ep tid ⟨path, n⟩) = l.ep tid := by
    intro path
    induction path with
    | nil => simp [Path.loops]
    | cons f path ih =>
      intro n k hl hk
      obtain ⟨k, rfl⟩ : ∃ m, k = m + 2 := ⟨k - 2, by rw [List.length_cons] at hk; omega⟩
      rw [ExecPoint.popToLoop, getType_ep, if_neg (by simp), pop_ep, ExecPoint.popToLoop]
      cases f with
      | arm m d =>
        rw [if_neg (by simp [ExecPoint.getType, Frame.entries]), pop_arm]
        apply ih m k hl
        rw [List.length_cons] at hk
        omega
      | loop m i =>
        rw [if_pos (by simp [ExecPoint.getType, Frame.entries]), pop_loop]
        obtain ⟨rfl, -⟩ := List.cons_eq_cons.mp hl
        rfl
  obtain ⟨path, n⟩ := s
  apply hpop path n _ h
  rw [getSize_ep]
  exact Nat.le_succ _

theorem rollback_ep {b : Site} (h : b ∈ s.path.branches) :
    (s.ep tid).rollback (b.ep tid).getSize = b.ep tid := by
  obtain ⟨inner, d, hpath⟩ := Path.exists_of_mem_branches h
  have hsplit : s.path.entries ++ [(.counter, s.n)] = (b.path.entries ++ [(.counter, b.n)]) ++
      ((.branch, d) :: Path.entries inner ++ [(.counter, s.n)]) := by
    simp [hpath, Frame.entries]
  unfold ExecPoint.rollback ep ExecPoint.getSize
  rw [hsplit, List.take_left]

end Site

end SatCheck
