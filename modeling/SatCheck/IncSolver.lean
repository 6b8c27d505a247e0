import Mathlib.Data.List.Basic
import Mathlib.Logic.Function.Basic
/-!
# The pipes to the solver

`IncrementalSolver` of `inc_solver.cc`.  `write` and `read` may move fewer bytes than asked for,
down to one, and `read` returns 0 once the solver has closed its end and the pipe is empty.
-/

namespace SatCheck

def IS_FREEZE : Int32 := 3

def IS_RUNSOLVER : Int32 := 4

def IS_BUFFERSIZE : Nat := 1024

/-- How a call of the class does not return: it runs on, it exits after a failed `read` or
`write`, or it writes outside the buffer. -/
inductive Stop where
  | running
  | failure
  | outside
  deriving DecidableEq, Repr

/-- `sent` is what went down the pipe in `writes` calls of `write`. -/
structure IncrementalSolver where
  buffer : Nat → Int32
  offset : Nat
  sent : List UInt8
  writes : Nat

namespace IncrementalSolver

def new (buffer : Nat → Int32) : IncrementalSolver := ⟨buffer, 0, [], 0⟩

/-- The bytes of an `int` in memory. -/
def intBytes (value : Int32) : List UInt8 :=
  (List.range 4).map fun i => (value.toUInt32 >>> UInt32.ofNat (8 * i)).toUInt8

def bytes (values : List Int32) : List UInt8 := values.flatMap intBytes

/-- The first `n` entries of the buffer. -/
def entries (s : IncrementalSolver) (n : Nat) : List Int32 := (List.range n).map s.buffer

/-- The loop of `flushBuffer` for at most `fuel` iterations.  The answer to a `write` is `none`
for -1 and `some a` if it takes up to `a + 1` bytes. -/
def writeLoop (answer : Nat → Option Nat) : Nat → IncrementalSolver → Nat → Nat →
    Except Stop IncrementalSolver
  | 0, _, _, _ => .error .running
  | fuel + 1, s, bytestowrite, byteswritten =>
      match answer s.writes with
      | none => .error .failure
      | some a =>
          let n := min (a + 1) bytestowrite
          let memory := bytes (s.entries IS_BUFFERSIZE)
          let s := { s with
            sent := s.sent ++ (memory.drop byteswritten).take n
            writes := s.writes + 1 }
          if bytestowrite - n ≠ 0 then
            writeLoop answer fuel s (bytestowrite - n) (byteswritten + n)
          else .ok s

def flushBuffer (answer : Nat → Option Nat) (fuel : Nat) (s : IncrementalSolver) :
    Except Stop IncrementalSolver := do
  let s ← writeLoop answer fuel s (4 * s.offset) 0
  .ok { s with offset := 0 }

/-- `buffer[offset++]=literal`. -/
def store (s : IncrementalSolver) (literal : Int32) : IncrementalSolver :=
  { s with
    buffer := Function.update s.buffer s.offset literal
    offset := s.offset + 1 }

def addClauseLiteral (answer : Nat → Option Nat) (fuel : Nat) (s : IncrementalSolver)
    (literal : Int32) : Except Stop IncrementalSolver :=
  if s.offset < IS_BUFFERSIZE then
    let s := s.store literal
    if s.offset = IS_BUFFERSIZE then s.flushBuffer answer fuel else .ok s
  else .error .outside

def finishedClauses (answer : Nat → Option Nat) (fuel : Nat) (s : IncrementalSolver) :
    Except Stop IncrementalSolver :=
  s.addClauseLiteral answer fuel 0

def freeze (answer : Nat → Option Nat) (fuel : Nat) (s : IncrementalSolver) (var : Int32) :
    Except Stop IncrementalSolver := do
  let s ← s.addClauseLiteral answer fuel IS_FREEZE
  s.addClauseLiteral answer fuel var

def startSolve (answer : Nat → Option Nat) (fuel : Nat) (s : IncrementalSolver) :
    Except Stop IncrementalSolver := do
  let s ← s.addClauseLiteral answer fuel IS_RUNSOLVER
  s.flushBuffer answer fuel

/-- The loop of `readSolver` for at most `fuel` iterations, with the answers as for `write`:
`stream` is what the solver has written and will write before it closes its end, and `result` what
`reads` calls of `read` have read. -/
def readLoop (answer : Nat → Option Nat) : Nat → Nat → List UInt8 → Nat → List UInt8 →
    Except Stop (List UInt8 × List UInt8)
  | 0, _, _, _, _ => .error .running
  | fuel + 1, reads, stream, bytestoread, result =>
      match answer reads with
      | none => .error .failure
      | some a =>
          let n := min (min (a + 1) bytestoread) stream.length
          if bytestoread - n ≠ 0 then
            readLoop answer fuel (reads + 1) (stream.drop n) (bytestoread - n)
              (result ++ stream.take n)
          else .ok (result ++ stream.take n, stream.drop n)

def readSolver (answer : Nat → Option Nat) (fuel : Nat) (stream : List UInt8) (size : Nat) :
    Except Stop (List UInt8 × List UInt8) :=
  readLoop answer fuel 0 stream size []

/-! ## Commands -/

inductive Command where
  | addClauseLiteral (literal : Int32)
  | freeze (var : Int32)
  | finishedClauses
  | startSolve
  deriving DecidableEq, Repr

def Command.literals : Command → List Int32
  | .addClauseLiteral literal => [literal]
  | .freeze var => [IS_FREEZE, var]
  | .finishedClauses => [0]
  | .startSolve => [IS_RUNSOLVER]

def command (answer : Nat → Option Nat) (fuel : Nat) (s : IncrementalSolver) :
    Command → Except Stop IncrementalSolver
  | .addClauseLiteral literal => s.addClauseLiteral answer fuel literal
  | .freeze var => s.freeze answer fuel var
  | .finishedClauses => s.finishedClauses answer fuel
  | .startSolve => s.startSolve answer fuel

def commands (answer : Nat → Option Nat) (fuel : Nat) (s : IncrementalSolver)
    (cs : List Command) : Except Stop IncrementalSolver :=
  cs.foldlM (fun s c => s.command answer fuel c) s

/-- A call returns a result with a property, or exits after a `read` or `write` that failed. -/
def Returns {α : Type} (answer : Nat → Option Nat) (run : Except Stop α) (P : α → Prop) : Prop :=
  (run = .error .failure ∧ ∃ k, answer k = none) ∨ ∃ result, run = .ok result ∧ P result

variable {answer : Nat → Option Nat} {s : IncrementalSolver}

theorem Returns.bind {α β : Type} {run : Except Stop α} {P : α → Prop} {f : α → Except Stop β}
    {Q : β → Prop} (h : Returns answer run P) (hf : ∀ a, P a → Returns answer (f a) Q) :
    Returns answer (run >>= f) Q := by
  cases h with
  | inl hfail =>
    rw [hfail.1]
    exact Or.inl ⟨rfl, hfail.2⟩
  | inr hok =>
    obtain ⟨a, rfl, ha⟩ := hok
    exact hf a ha

theorem Returns.imp {α : Type} {run : Except Stop α} {P Q : α → Prop} (hPQ : ∀ a, P a → Q a)
    (h : Returns answer run P) : Returns answer run Q := by
  cases h with
  | inl hfail => exact Or.inl hfail
  | inr hok =>
    obtain ⟨a, hrun, ha⟩ := hok
    exact Or.inr ⟨a, hrun, hPQ a ha⟩

/-! ## Bytes -/

private theorem length_bytes (values : List Int32) : (bytes values).length = 4 * values.length := by
  induction values with
  | nil => rfl
  | cons value values ih =>
    rw [bytes, List.flatMap_cons, List.length_append]
    show 4 + (bytes values).length = 4 * (values.length + 1)
    omega

theorem bytes_append (values values' : List Int32) :
    bytes (values ++ values') = bytes values ++ bytes values' :=
  List.flatMap_append

@[simp] theorem length_entries (s : IncrementalSolver) (n : Nat) : (s.entries n).length = n := by
  simp [entries]

theorem entries_succ (s : IncrementalSolver) (n : Nat) :
    s.entries (n + 1) = s.entries n ++ [s.buffer n] := by
  simp [entries, List.range_succ]

theorem take_bytes_entries (s : IncrementalSolver) {m n : Nat} (h : m ≤ n) :
    (bytes (s.entries n)).take (4 * m) = bytes (s.entries m) := by
  obtain ⟨k, rfl⟩ := Nat.exists_eq_add_of_le h
  have hsplit : s.entries (m + k) =
      s.entries m ++ (List.range k).map fun i => s.buffer (m + i) := by
    simp [entries, List.range_add]
  rw [hsplit, bytes_append, List.take_left']
  rw [length_bytes, length_entries]

/-! ## Writing -/

/-- The loop writes the rest of the bytes, in as many calls as it takes. -/
theorem returns_writeLoop (s : IncrementalSolver) (fuel bytestowrite byteswritten : Nat)
    (hfuel : bytestowrite < fuel) :
    Returns answer (writeLoop answer fuel s bytestowrite byteswritten) fun s' =>
      s'.buffer = s.buffer ∧ s'.offset = s.offset ∧ s'.sent = s.sent ++
        ((bytes (s.entries IS_BUFFERSIZE)).drop byteswritten).take bytestowrite := by
  induction fuel generalizing s bytestowrite byteswritten with
  | zero => omega
  | succ fuel ih =>
    unfold writeLoop
    cases hanswer : answer s.writes with
    | none => exact Or.inl ⟨rfl, s.writes, hanswer⟩
    | some a =>
      simp only
      by_cases hmore : bytestowrite - min (a + 1) bytestowrite ≠ 0
      · rw [if_pos hmore]
        have hn : min (a + 1) bytestowrite = a + 1 := by omega
        have hsplit (memory : List UInt8) : memory.take bytestowrite =
            memory.take (a + 1) ++ (memory.drop (a + 1)).take (bytestowrite - (a + 1)) := by
          rw [← List.take_add]
          congr 1
          omega
        rw [hn] at hmore ⊢
        cases ih _ (bytestowrite - (a + 1)) (byteswritten + (a + 1)) (by omega) with
        | inl hfail => exact Or.inl hfail
        | inr hok =>
          obtain ⟨s', hrun, hbuffer, hoffset, hsent⟩ := hok
          refine Or.inr ⟨s', hrun, hbuffer, hoffset, ?_⟩
          rw [hsent, hsplit, List.drop_drop, ← List.append_assoc]
          rfl
      · rw [if_neg hmore]
        have hn : min (a + 1) bytestowrite = bytestowrite := by omega
        rw [hn]
        exact Or.inr ⟨_, rfl, rfl, rfl, rfl⟩

/-- The integers that went down the pipe and those in the buffer are the given ones. -/
def Sends (s : IncrementalSolver) (values : List Int32) : Prop :=
  ∃ written, s.sent = bytes written ∧ written ++ s.entries s.offset = values

theorem Sends.store {values : List Int32} (h : Sends s values) (literal : Int32) :
    Sends (s.store literal) (values ++ [literal]) := by
  obtain ⟨written, hwritten, rfl⟩ := h
  have hbefore : (s.store literal).entries s.offset = s.entries s.offset := by
    apply List.map_congr_left
    intro i hi
    exact Function.update_of_ne (Nat.ne_of_lt (List.mem_range.mp hi)) _ _
  have hlast : (s.store literal).buffer s.offset = literal := Function.update_self _ _ _
  refine ⟨written, hwritten, ?_⟩
  show written ++ (s.store literal).entries (s.offset + 1) = _
  rw [entries_succ, hbefore, hlast, List.append_assoc]

theorem Sends.returns_flushBuffer {values : List Int32} (h : Sends s values) {fuel : Nat}
    (hfuel : 4 * IS_BUFFERSIZE < fuel) (hoffset : s.offset ≤ IS_BUFFERSIZE) :
    Returns answer (s.flushBuffer answer fuel) fun s' => s'.offset = 0 ∧ Sends s' values := by
  obtain ⟨written, hwritten, hvalues⟩ := h
  apply (returns_writeLoop s fuel (4 * s.offset) 0 (by omega)).bind
  rintro s' ⟨-, -, hsent⟩
  rw [List.drop_zero, take_bytes_entries s hoffset, hwritten, ← bytes_append, hvalues] at hsent
  exact Or.inr ⟨_, rfl, rfl, values, hsent, List.append_nil values⟩

theorem Sends.returns_addClauseLiteral {values : List Int32} (h : Sends s values)
    (hoffset : s.offset < IS_BUFFERSIZE) {fuel : Nat} (hfuel : 4 * IS_BUFFERSIZE < fuel)
    (literal : Int32) :
    Returns answer (s.addClauseLiteral answer fuel literal) fun s' =>
      s'.offset < IS_BUFFERSIZE ∧ Sends s' (values ++ [literal]) := by
  have hstored := h.store literal
  have hnext : (s.store literal).offset = s.offset + 1 := rfl
  unfold addClauseLiteral
  rw [if_pos hoffset]
  simp only
  split_ifs with hfull
  · apply Returns.imp _ (hstored.returns_flushBuffer hfuel (Nat.le_of_eq hfull))
    rintro s' ⟨hempty, hsends⟩
    rw [hempty]
    exact ⟨by decide, hsends⟩
  · exact Or.inr ⟨_, rfl, by omega, hstored⟩

/-- What holds after a sequence of calls: the offset is inside the buffer, the integers are those
of the calls, and a call of `startSolve` leaves none in the buffer. -/
def Written (s : IncrementalSolver) (cs : List Command) : Prop :=
  s.offset < IS_BUFFERSIZE ∧ Sends s (cs.flatMap Command.literals) ∧
    (cs.getLast? = some .startSolve → s.offset = 0)

theorem Written.returns_command {cs : List Command} (h : Written s cs) {fuel : Nat}
    (hfuel : 4 * IS_BUFFERSIZE < fuel) (c : Command) :
    Returns answer (s.command answer fuel c) fun s' => Written s' (cs ++ [c]) := by
  obtain ⟨hoffset, hsends, -⟩ := h
  have hlast (P : Prop) (hc : c ≠ .startSolve) :
      (cs ++ [c]).getLast? = some .startSolve → P := by
    rw [List.getLast?_concat]
    exact fun heq => absurd (Option.some.inj heq) hc
  unfold Written
  rw [List.flatMap_append, List.flatMap_singleton]
  cases c with
  | addClauseLiteral literal =>
    apply Returns.imp _ (hsends.returns_addClauseLiteral hoffset hfuel literal)
    rintro s' ⟨hoffset', hsends'⟩
    exact ⟨hoffset', hsends', hlast _ (by simp)⟩
  | finishedClauses =>
    apply Returns.imp _ (hsends.returns_addClauseLiteral hoffset hfuel 0)
    rintro s' ⟨hoffset', hsends'⟩
    exact ⟨hoffset', hsends', hlast _ (by simp)⟩
  | freeze var =>
    apply (hsends.returns_addClauseLiteral hoffset hfuel IS_FREEZE).bind
    rintro s₁ ⟨hoffset₁, hsends₁⟩
    apply Returns.imp _ (hsends₁.returns_addClauseLiteral hoffset₁ hfuel var)
    rintro s' ⟨hoffset', hsends'⟩
    rw [List.append_assoc] at hsends'
    exact ⟨hoffset', hsends', hlast _ (by simp)⟩
  | startSolve =>
    apply (hsends.returns_addClauseLiteral hoffset hfuel IS_RUNSOLVER).bind
    rintro s₁ ⟨hoffset₁, hsends₁⟩
    apply Returns.imp _ (hsends₁.returns_flushBuffer hfuel (Nat.le_of_lt hoffset₁))
    rintro s' ⟨hempty, hsends'⟩
    rw [hempty]
    exact ⟨by decide, hsends', fun _ => rfl⟩

theorem written_new (buffer : Nat → Int32) : Written (new buffer) [] :=
  ⟨Nat.lt_of_sub_eq_succ rfl, ⟨[], rfl, rfl⟩, by simp⟩

theorem Written.returns_commands {before : List Command} (h : Written s before) {fuel : Nat}
    (hfuel : 4 * IS_BUFFERSIZE < fuel) (cs : List Command) :
    Returns answer (s.commands answer fuel cs) fun s' => Written s' (before ++ cs) := by
  induction cs generalizing s before with
  | nil =>
    rw [List.append_nil]
    exact Or.inr ⟨s, rfl, h⟩
  | cons c cs ih =>
    unfold commands
    rw [List.foldlM_cons]
    apply (h.returns_command hfuel c).bind
    intro s' hs'
    rw [List.append_cons]
    exact ih hs'

/-! ## Reading -/

theorem returns_readLoop {fuel : Nat} (reads : Nat) (stream : List UInt8) (bytestoread : Nat)
    (result : List UInt8) (hfuel : bytestoread < fuel) (hstream : bytestoread ≤ stream.length) :
    Returns answer (readLoop answer fuel reads stream bytestoread result) fun r =>
      r = (result ++ stream.take bytestoread, stream.drop bytestoread) := by
  induction fuel generalizing reads stream bytestoread result with
  | zero => omega
  | succ fuel ih =>
    unfold readLoop
    cases hanswer : answer reads with
    | none => exact Or.inl ⟨rfl, reads, hanswer⟩
    | some a =>
      simp only
      have hn : min (min (a + 1) bytestoread) stream.length = min (a + 1) bytestoread := by omega
      rw [hn]
      split_ifs with hmore
      · have hshort : min (a + 1) bytestoread = a + 1 := by omega
        have hsplit : bytestoread = a + 1 + (bytestoread - (a + 1)) := by omega
        rw [hshort] at hmore ⊢
        have hrest := ih (reads + 1) (stream.drop (a + 1)) (bytestoread - (a + 1))
          (result ++ stream.take (a + 1)) (by omega) (by rw [List.length_drop]; omega)
        rwa [List.append_assoc, ← List.take_add, List.drop_drop, ← hsplit] at hrest
      · have hall : min (a + 1) bytestoread = bytestoread := by omega
        rw [hall]
        exact Or.inr ⟨_, rfl, rfl⟩

theorem readLoop_of_short (hanswer : ∀ k, answer k ≠ none) (fuel reads : Nat)
    (stream : List UInt8) (bytestoread : Nat) (result : List UInt8)
    (hstream : stream.length < bytestoread) :
    readLoop answer fuel reads stream bytestoread result = .error .running := by
  induction fuel generalizing reads stream bytestoread result with
  | zero => rfl
  | succ fuel ih =>
    obtain ⟨a, ha⟩ := Option.ne_none_iff_exists'.mp (hanswer reads)
    unfold readLoop
    rw [ha]
    simp only
    rw [if_pos (by omega)]
    apply ih
    rw [List.length_drop]
    omega

theorem readLoop_of_fail {k : Nat} (hk : answer k = none) {fuel reads : Nat}
    (stream : List UInt8) (bytestoread : Nat) (result : List UInt8) (hreads : reads ≤ k)
    (hfuel : k < fuel + reads) (hstream : stream.length < bytestoread) :
    readLoop answer fuel reads stream bytestoread result = .error .failure := by
  induction fuel generalizing reads stream bytestoread result with
  | zero => omega
  | succ fuel ih =>
    unfold readLoop
    cases ha : answer reads with
    | none => rfl
    | some a =>
      have hne : reads ≠ k := by
        rintro rfl
        rw [hk] at ha
        exact absurd ha (by simp)
      simp only
      rw [if_pos (by omega)]
      apply ih _ _ _ (by omega) (by omega)
      rw [List.length_drop]
      omega

/-- `readSolver` returns the requested bytes in the order of the stream, or reports a failure. -/
def Reads (answer : Nat → Option Nat) (stream : List UInt8) (size : Nat) : Prop :=
  ∃ fuel, Returns answer (readSolver answer fuel stream size) fun r =>
    size ≤ stream.length ∧ r = (stream.take size, stream.drop size)

/-- The solver closes its end with bytes missing, and no call of `read` fails. -/
def EndsEarly (answer : Nat → Option Nat) (stream : List UInt8) (size : Nat) : Prop :=
  stream.length < size ∧ ∀ k, answer k ≠ none

private theorem reads_iff (answer : Nat → Option Nat) (stream : List UInt8) (size : Nat) :
    Reads answer stream size ↔ ¬ EndsEarly answer stream size := by
  constructor
  · rintro ⟨fuel, hreturns⟩ ⟨hshort, hanswer⟩
    cases hreturns with
    | inl hfail =>
      obtain ⟨-, k, hk⟩ := hfail
      exact hanswer k hk
    | inr hok =>
      obtain ⟨-, -, hle, -⟩ := hok
      omega
  · intro h
    by_cases hle : size ≤ stream.length
    · refine ⟨size + 1, Returns.imp ?_ (returns_readLoop 0 stream size [] (by omega) hle)⟩
      rintro r rfl
      exact ⟨hle, rfl⟩
    · have hfail : ∃ k, answer k = none := by
        by_contra hnone
        exact h ⟨by omega, fun k hk => hnone ⟨k, hk⟩⟩
      obtain ⟨k, hk⟩ := hfail
      refine ⟨k + 1, Or.inl ⟨?_, k, hk⟩⟩
      exact readLoop_of_fail hk stream size [] (Nat.zero_le k) (by omega) (by omega)

/-! ## Both pipes -/

/-- Every sequence of calls ends and has its integers written, and `readSolver` does its work. -/
def Transfers (write read : Nat → Option Nat) (buffer : Nat → Int32) (cs : List Command)
    (stream : List UInt8) (size : Nat) : Prop :=
  (∃ fuel, Returns write (commands write fuel (new buffer) cs) fun s => Written s cs) ∧
    Reads read stream size

theorem transfers_iff (write read : Nat → Option Nat) (buffer : Nat → Int32) (cs : List Command)
    (stream : List UInt8) (size : Nat) :
    Transfers write read buffer cs stream size ↔ ¬ EndsEarly read stream size := by
  rw [← reads_iff]
  constructor
  · exact fun h => h.2
  · intro h
    exact ⟨⟨_, (written_new buffer).returns_commands (Nat.lt_succ_self _) cs⟩, h⟩

/-- The solver dies before it answers. -/
theorem not_forall_transfers :
    ¬ ∀ write read buffer cs stream size, Transfers write read buffer cs stream size := by
  intro h
  obtain ⟨-, fuel, hreturns⟩ := h (fun _ => some 0) (fun _ => some 0)
    (fun _ => 0) [.startSolve] [] 4
  have hrun : readSolver (fun _ => some 0) fuel [] 4 = .error .running :=
    readLoop_of_short (by simp) fuel 0 [] 4 [] (by decide)
  unfold Returns at hreturns
  rw [hrun] at hreturns
  simp at hreturns

end IncrementalSolver

end SatCheck
