import OstrichServer.Http.Resume

/-!
# Invariants of an accepted request line

A property of the bytes read so far, the parser state and the request which every turn of the
`switch` keeps holds when the parser accepts, over any number of calls.  Offsets count from
`b->start`, so a property may speak of the pointers of the request.
-/

namespace OstrichServer
namespace Http

open StoppingReader

/-! ## Bytes -/

/-- The bytes between two offsets. -/
def slice (seen : List UInt8) (start stop : Nat) : List UInt8 := (seen.take stop).drop start

section Slice

variable {seen : List UInt8} {start middle stop : Nat}

theorem slice_append (later : List UInt8) (inside : stop ≤ seen.length) :
    slice (seen ++ later) start stop = slice seen start stop := by
  rw [slice, slice, List.take_append_of_le_length inside]

theorem slice_concat_last (c : UInt8) (inside : start ≤ seen.length) :
    slice (seen ++ [c]) start (seen.length + 1) = slice seen start seen.length ++ [c] := by
  simp only [slice, List.take_length]
  rw [List.take_of_length_le (by simp), List.drop_append_of_le_length inside]

@[simp]
theorem slice_self (seen : List UInt8) (start : Nat) : slice seen start start = [] := by
  rw [slice, List.drop_eq_nil_iff]
  exact List.length_take_le _ _

theorem slice_last (seen : List UInt8) (c : UInt8) :
    slice (seen ++ [c]) seen.length (seen.length + 1) = [c] := by
  rw [slice_concat_last c le_rfl, slice_self, List.nil_append]

@[simp]
theorem slice_length (seen : List UInt8) (start : Nat) :
    slice seen start seen.length = seen.drop start := by
  rw [slice, List.take_length]

theorem slice_take {count : Nat} (inside : stop ≤ count) :
    slice (seen.take count) start stop = slice seen start stop := by
  rw [slice, slice, List.take_take, min_eq_left inside]

theorem length_slice (inside : stop ≤ seen.length) :
    (slice seen start stop).length = stop - start := by
  rw [slice, List.length_drop, List.length_take, min_eq_left inside]

theorem slice_append_slice (seen : List UInt8) (first : start ≤ middle) (second : middle ≤ stop) :
    slice seen start middle ++ slice seen middle stop = slice seen start stop := by
  have front : (seen.take stop).take middle = seen.take middle := by
    rw [List.take_take, min_eq_left second]
  have split : seen.take stop = seen.take middle ++ (seen.take stop).drop middle := by
    rw [← front, List.take_append_drop]
  unfold slice
  rcases le_total seen.length middle with short | long
  · have all : seen.take stop = seen := List.take_of_length_le (short.trans second)
    rw [all, List.take_of_length_le short, List.drop_eq_nil_of_le short, List.append_nil]
  · conv_rhs => rw [split]
    rw [List.drop_append_of_le_length]
    rwa [List.length_take, min_eq_left long]

/-- The two parts of a slice which is known as an append. -/
theorem slice_of_append {front back : List UInt8} (order : start ≤ stop)
    (inside : stop ≤ seen.length) (split : slice seen start stop = front ++ back) :
    start + front.length + back.length = stop ∧
      slice seen start (start + front.length) = front ∧
      slice seen (start + front.length) stop = back := by
  have length := congrArg List.length split
  rw [length_slice inside, List.length_append] at length
  have total : start + front.length + back.length = stop := by omega
  have parts := slice_append_slice seen (Nat.le_add_right start front.length)
    (show start + front.length ≤ stop by omega)
  rw [split] at parts
  have first : (slice seen start (start + front.length)).length = front.length := by
    rw [length_slice (by omega)]
    omega
  obtain ⟨left, right⟩ := List.append_inj parts first
  exact ⟨total, left, right⟩

end Slice

/-- A pair of bytes in a list with one more byte. -/
theorem pair_infix_concat {path : List UInt8} {a b c : UInt8} :
    [a, b] <:+: path ++ [c] ↔ [a, b] <:+: path ∨ path.getLast? = some a ∧ b = c := by
  rw [List.infix_concat_iff, List.suffix_concat_iff, or_comm]
  refine or_congr_right ⟨?_, ?_⟩
  · rintro (empty | ⟨front, pair, last⟩)
    · cases empty
    · obtain ⟨rfl, same⟩ := List.append_inj' (show [a] ++ [b] = front ++ [c] from pair) rfl
      obtain ⟨before, rfl⟩ := last
      exact ⟨by simp, by simpa using same⟩
  · rintro ⟨last, rfl⟩
    obtain ⟨before, rfl⟩ := List.getLast?_eq_some_iff.mp last
    exact Or.inr ⟨[a], rfl, before, rfl⟩

/-! ## Invariants -/

/-- One examination of `ch` at the end of `seen` keeps an invariant. -/
def Keeps (holds : List UInt8 → LineState → HttpRequest → Prop)
    (done : List UInt8 → HttpRequest → Prop) (seen : List UInt8) (ch : UInt8) :
    LineMove → Prop :=
  LineMove.Ensures (holds (seen ++ [ch])) (holds seen) (fun _ _ => True) (done (seen ++ [ch]))

/-- The step of an invariant which is kept while the bytes read are those of the buffer. -/
private theorem step_while {b : OsBuf} {base : List UInt8} (length : base.length = b.pos)
    {holds : List UInt8 → LineState → HttpRequest → Prop} {done : List UInt8 → HttpRequest → Prop}
    (step : ∀ seen ch state r, seen <+: b.received → holds seen state r →
      Keeps holds done seen ch (lineStep b seen.length ch state r))
    (front : List UInt8) (ch : UInt8) (state : LineState) (r : HttpRequest)
    (here : base ++ front <+: b.received → holds (base ++ front) state r) :
    (lineStep b (b.pos + front.length) ch state r).Ensures
      (fun state r => base ++ (front ++ [ch]) <+: b.received →
        holds (base ++ (front ++ [ch])) state r)
      (fun state r => base ++ front <+: b.received → holds (base ++ front) state r)
      (fun _ _ => True)
      (fun r => base ++ (front ++ [ch]) <+: b.received → done (base ++ (front ++ [ch])) r) := by
  have keeps := fun more => step (base ++ front) ch state r more (here more)
  rw [List.length_append, length] at keeps
  rw [← List.append_assoc]
  have shorter : base ++ front ++ [ch] <+: b.received → base ++ front <+: b.received :=
    (List.prefix_append _ _).trans
  cases moved : lineStep b (b.pos + front.length) ch state r with
  | next state' r' =>
      intro more
      have kept := keeps (shorter more)
      rwa [moved] at kept
  | back state' r' =>
      intro more
      have kept := keeps more
      rwa [moved] at kept
  | fail code r' => trivial
  | done r' =>
      intro more
      have kept := keeps (shorter more)
      rwa [moved] at kept

/-- The run of the reader over a line which one call accepts. -/
theorem lineRun_of_osOk {b b' : OsBuf} (wf : b.WellFormed) {r : HttpRequest}
    (accepted : httpParseRequestLine .fresh b = (.osOk, r, b')) :
    ∃ p r' rest, lineRun .fresh b = .stopped (.done p r') rest ∧ r = lineDone p r' ∧
      b' = { b with pos := p + 1 } := by
  rw [httpParseRequestLine_eq wf] at accepted
  rcases reached : lineRun .fresh b with c | ⟨⟨code, r'⟩ | ⟨p, r'⟩, rest⟩
  · simp [reached, lineResult] at accepted
  · obtain ⟨front, ch, c, -, -, halt⟩ := exists_of_stopped _ reached
    rcases lineMove_fail halt with rfl | rfl <;> simp [reached, lineResult] at accepted
  · obtain ⟨-, rfl, rfl⟩ : doneCode (lineDone p r') = .osOk ∧ lineDone p r' = r ∧
        { b with pos := p + 1 } = b' := by
      simpa [reached, lineResult] using accepted
    exact ⟨p, r', rest, rfl, rfl, rfl⟩

/-- What every turn keeps holds of a line which one call accepts. -/
theorem done_of_osOk {b b' : OsBuf} (wf : b.WellFormed) {r : HttpRequest}
    (accepted : httpParseRequestLine .fresh b = (.osOk, r, b'))
    (holds : List UInt8 → LineState → HttpRequest → Prop) (done : List UInt8 → HttpRequest → Prop)
    (initial : holds (b.received.take b.pos) .swStart .fresh)
    (step : ∀ seen ch state r, seen <+: b.received → holds seen state r →
      Keeps holds done seen ch (lineStep b seen.length ch state r)) :
    ∃ p r', b' = { b with pos := p + 1 } ∧ b.pos ≤ p ∧ p < b.last ∧ r = lineDone p r' ∧
      done (b.received.take (p + 1)) r' := by
  obtain ⟨p, r', rest, reached, rfl, rfl⟩ := lineRun_of_osOk wf accepted
  have before : (b.received.take b.pos).length = b.pos := by
    rw [List.length_take, wf.received_length, min_eq_left wf.pos_le]
  obtain ⟨front, position, split, finish⟩ := run_done_of_step
    (fun front state r => b.received.take b.pos ++ front <+: b.received →
      holds (b.received.take b.pos ++ front) state r)
    (fun front r => b.received.take b.pos ++ front <+: b.received →
      done (b.received.take b.pos ++ front) r)
    (step_while before step) (by intro _; rwa [List.append_nil]) reached
  have all : b.received = (b.received.take b.pos ++ front) ++ rest := by
    rw [List.append_assoc, ← split, OsBuf.pending, List.take_append_drop]
  have length : (b.received.take b.pos ++ front).length = p + 1 := by
    rw [List.length_append, before, position]
  have taken : b.received.take (p + 1) = b.received.take b.pos ++ front := by
    rw [all, List.take_left' length]
    congr 1
    rw [List.append_assoc, List.take_left' before]
  have inside : p + 1 ≤ b.last := by
    rw [← wf.received_length, all, List.length_append, length]
    exact Nat.le_add_right _ _
  have ahead : b.pos ≤ p := by
    cases front with
    | cons ch front =>
        rw [List.length_cons] at position
        omega
    | nil =>
        -- the parser never stops before its first byte
        obtain ⟨front, ch, c, pending, -, -⟩ := exists_of_stopped _ reached
        rw [split, List.nil_append] at pending
        have := congrArg List.length pending
        simp only [List.length_append, List.length_cons] at this
        omega
  refine ⟨p, r', rfl, ahead, inside, rfl, ?_⟩
  rw [taken]
  exact finish ⟨rest, all.symm⟩

/-- Accepting a line moves `b->pos` past it and changes nothing else in the buffer. -/
theorem buffer_of_osOk {b b' : OsBuf} (wf : b.WellFormed) {r : HttpRequest}
    (accepted : httpParseRequestLine .fresh b = (.osOk, r, b')) :
    b'.WellFormed ∧ b.pos < b'.pos ∧ b'.received = b.received := by
  obtain ⟨p, -, rfl, before, inside, -⟩ := done_of_osOk wf accepted (fun _ _ _ => True)
    (fun _ _ => True) trivial
    fun seen ch state r _ _ => by cases lineStep b seen.length ch state r <;> trivial
  exact ⟨⟨inside, wf.last_le, wf.size⟩, Nat.lt_succ_of_le before, rfl⟩

/-- The bytes pending before an accepting call are those of the line and the ones left over. -/
theorem pending_of_done {b : OsBuf} {p : Nat} {r : HttpRequest} {rest : List UInt8}
    (reached : lineRun .fresh b = .stopped (.done p r) rest) :
    b.pending = slice b.received b.pos (p + 1) ++ rest := by
  have position := run_done_p reached
  obtain ⟨front, ch, middle, pending, -, -⟩ := exists_of_stopped _ reached
  have length := congrArg List.length pending
  rw [List.length_append, List.length_cons] at length
  simp only at position
  have taken : slice b.received b.pos (p + 1) = b.pending.take (p + 1 - b.pos) := by
    rw [slice, OsBuf.pending, List.take_drop]
    congr 2
    omega
  have split : b.pending = (front ++ [ch]) ++ rest := by rw [pending, List.append_cons]
  rw [taken, split, List.take_left']
  rw [List.length_append, List.length_singleton]
  omega

/-- A buffer with room for a line and nothing else holds the line. -/
def OsBuf.holding (line : List UInt8) : OsBuf := ⟨line, 0, line.length, line.length⟩

theorem OsBuf.holding_wellFormed (line : List UInt8) : (OsBuf.holding line).WellFormed :=
  ⟨Nat.zero_le _, le_rfl, rfl⟩

end Http
end OstrichServer
