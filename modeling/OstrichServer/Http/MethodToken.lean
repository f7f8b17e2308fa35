import OstrichServer.Http.Accepted

/-!
# The method token

The bytes from `request_start` to `method_end` are the method token of the line, and `r->method`
is the code of that token.
-/

namespace OstrichServer
namespace Http

/-! ## Method codes -/

/-- The method names and their codes. -/
def methods : List (List UInt8 × UInt32) :=
  [([chr 'G', chr 'E', chr 'T'], osHttpGet),
    ([chr 'P', chr 'U', chr 'T'], osHttpPut),
    ([chr 'P', chr 'O', chr 'S', chr 'T'], osHttpPost),
    ([chr 'C', chr 'O', chr 'P', chr 'Y'], osHttpCopy),
    ([chr 'M', chr 'O', chr 'V', chr 'E'], osHttpMove),
    ([chr 'L', chr 'O', chr 'C', chr 'K'], osHttpLock),
    ([chr 'H', chr 'E', chr 'A', chr 'D'], osHttpHead),
    ([chr 'M', chr 'K', chr 'C', chr 'O', chr 'L'], osHttpMkcol),
    ([chr 'P', chr 'A', chr 'T', chr 'C', chr 'H'], osHttpPatch),
    ([chr 'T', chr 'R', chr 'A', chr 'C', chr 'E'], osHttpTrace),
    ([chr 'D', chr 'E', chr 'L', chr 'E', chr 'T', chr 'E'], osHttpDelete),
    ([chr 'U', chr 'N', chr 'L', chr 'O', chr 'C', chr 'K'], osHttpUnlock),
    ([chr 'O', chr 'P', chr 'T', chr 'I', chr 'O', chr 'N', chr 'S'], osHttpOptions),
    ([chr 'P', chr 'R', chr 'O', chr 'P', chr 'F', chr 'I', chr 'N', chr 'D'], osHttpPropfind),
    ([chr 'P', chr 'R', chr 'O', chr 'P', chr 'P', chr 'A', chr 'T', chr 'C', chr 'H'],
      osHttpProppatch)]

/-- The code of a method token, 0 for an unknown one. -/
def tokenCode (token : List UInt8) : UInt32 :=
  methods.foldr (fun named rest => if token = named.1 then named.2 else rest) 0

/-- On a request whose method is not set the `switch (p - m)` finds the code of the token. -/
theorem methodCode_eq_tokenCode (token : List UInt8) :
    methodCode (fun i => token.getD i 0) token.length 0 = tokenCode token := by
  match token with
  | [] | [_] | [_, _] => simp [methodCode, tokenCode, methods]
  | [_, _, _] => simp [methodCode, tokenCode, methods]
  | [_, b, _, _] =>
      -- the second letter 'O' has a branch of its own
      by_cases second : b = 79
      · simp [methodCode, tokenCode, methods, second]
      · simp [methodCode, tokenCode, methods, second]
  | [_, _, _, _, _] => simp [methodCode, tokenCode, methods]
  | [_, _, _, _, _, _] => simp [methodCode, tokenCode, methods]
  | [_, _, _, _, _, _, _] => simp [methodCode, tokenCode, methods]
  | [_, _, _, _, _, _, _, _] => simp [methodCode, tokenCode, methods]
  | [_, _, _, _, _, _, _, _, _] => simp [methodCode, tokenCode, methods]
  | _ :: _ :: _ :: _ :: _ :: _ :: _ :: _ :: _ :: _ :: _ => simp [methodCode, tokenCode, methods]

/-! ## The invariant -/

/-- The fields of a request which say where its method token is and what it means. -/
structure MethodMarks where
  start : Option Nat
  last : Option Nat
  code : UInt32

/-- The method fields of a request. -/
def HttpRequest.methodMarks (r : HttpRequest) : MethodMarks :=
  ⟨r.requestStart, r.methodEnd, r.method⟩

/-- The method token between `start` and `last`, read from offset `base` on. -/
structure MethodRead (base : Nat) (seen : List UInt8) (marks : MethodMarks) (start last : Nat) :
    Prop where
  requestStart : marks.start = some start
  methodEnd : marks.last = some last
  base_le : base ≤ start
  start_le : start ≤ last
  space_lt : last + 1 < seen.length
  blank : ∀ c ∈ slice seen base start, c = cr ∨ c = lf
  token : ∀ c ∈ slice seen start (last + 1), isMethodByte c = true
  space : slice seen (last + 1) (last + 2) = [sp]
  method : marks.code = tokenCode (slice seen start (last + 1))

/-- The method token has been read. -/
def MethodKnown (base : Nat) (seen : List UInt8) (r : HttpRequest) : Prop :=
  ∃ start last, MethodRead base seen r.methodMarks start last

/-- What a parser state says about the method token among `seen`. -/
def MethodInvariant (base : Nat) (seen : List UInt8) (state : LineState) (r : HttpRequest) :
    Prop :=
  match state with
  | .swStart =>
      base ≤ seen.length ∧ r.method = 0 ∧ ∀ c ∈ slice seen base seen.length, c = cr ∨ c = lf
  | .swMethod =>
      ∃ start, r.requestStart = some start ∧ base ≤ start ∧ start < seen.length ∧ r.method = 0 ∧
        (∀ c ∈ slice seen base start, c = cr ∨ c = lf) ∧
        ∀ c ∈ slice seen start seen.length, isMethodByte c = true
  | _ => MethodKnown base seen r

section Turn

variable {base : Nat} {seen : List UInt8} {r : HttpRequest} {b : OsBuf}

theorem MethodRead.later {marks : MethodMarks} {start last : Nat}
    (read : MethodRead base seen marks start last) (later : List UInt8) :
    MethodRead base (seen ++ later) marks start last := by
  have inside := read.space_lt
  have order := read.start_le
  refine ⟨read.requestStart, read.methodEnd, read.base_le, order, by simp; omega, ?_, ?_, ?_, ?_⟩
  · rw [slice_append _ (by omega)]
    exact read.blank
  · rw [slice_append _ (by omega)]
    exact read.token
  · rw [slice_append _ (by omega)]
    exact read.space
  · rw [slice_append _ (by omega)]
    exact read.method

/-- The parser finds the code of the token it has read. -/
theorem methodCode_of_prefix (wf : b.WellFormed) (read : seen <+: b.received) {start : Nat}
    (inside : start ≤ seen.length) :
    methodCode (fun i => b.byte (start + i)) (seen.length - start) 0 =
      tokenCode (slice seen start seen.length) := by
  have length : (slice seen start seen.length).length = seen.length - start :=
    length_slice le_rfl
  rw [← methodCode_eq_tokenCode, length]
  refine methodCode_congr 0 fun i less => ?_
  obtain ⟨rest, all⟩ := read
  have bound : start + i < b.last := by
    rw [← wf.received_length, ← all, List.length_append]
    omega
  have same := wf.byte_of_lt bound
  rw [← all, List.getElem?_append_left (by omega)] at same
  rw [slice_length, List.getD_eq_getElem?_getD, List.getElem?_drop, same]
  rfl

/-- Every turn of the `switch` keeps the invariant. -/
theorem lineStep_keepsMethod (wf : b.WellFormed) (c : UInt8) (state : LineState)
    (read : seen <+: b.received) (holds : MethodInvariant base seen state r) :
    Keeps (MethodInvariant base) (MethodKnown base) seen c (lineStep b seen.length c state r) := by
  cases state with
  | swStart =>
      obtain ⟨inside, unset, blank⟩ := holds
      simp only [lineStep]
      refine iteInduction (fun line_end => ?_) fun _ =>
        iteInduction (fun _ => trivial) fun letter => ?_
      · refine ⟨by simp; omega, unset, ?_⟩
        rw [List.length_append, List.length_singleton, slice_concat_last c inside]
        intro d member
        rcases List.mem_append.mp member with old | new
        · exact blank d old
        · rwa [List.mem_singleton.mp new]
      · refine ⟨seen.length, rfl, inside, by simp, unset, ?_, ?_⟩
        · rwa [slice_append _ le_rfl]
        · rw [List.length_append, List.length_singleton, slice_last]
          intro d member
          rw [List.mem_singleton.mp member]
          exact not_not.mp letter
  | swMethod =>
      obtain ⟨start, here, after, inside, unset, blank, token⟩ := holds
      have token_code : recognizedMethod b seen.length (r.setMethodEnd (seen.length - 1)) =
          methodCode (fun i => b.byte (start + i)) (seen.length - start) r.method := by
        simp only [recognizedMethod, HttpRequest.setMethodEnd, here]
      simp only [lineStep, token_code]
      refine iteInduction (fun space => ?_) fun _ =>
        iteInduction (fun _ => trivial) fun letter => ?_
      · subst space
        have last : seen.length - 1 + 1 = seen.length := by omega
        refine ⟨start, seen.length - 1,
          ⟨here, rfl, after, by omega, by simp; omega, ?_, ?_, ?_, ?_⟩⟩
        · rwa [slice_append _ inside.le]
        · rwa [last, slice_append _ le_rfl]
        · rw [show seen.length - 1 + 2 = seen.length + 1 by omega, last]
          exact slice_last seen sp
        · rw [last, slice_append _ le_rfl, ← methodCode_of_prefix wf read inside.le, ← unset]
          rfl
      · refine ⟨start, here, after, by simp; omega, unset, ?_, ?_⟩
        · rwa [slice_append _ inside.le]
        · rw [List.length_append, List.length_singleton, slice_concat_last c inside.le]
          intro d member
          rcases List.mem_append.mp member with old | new
          · exact token d old
          · rw [List.mem_singleton.mp new]
            exact not_not.mp letter
  | _ =>
      -- no later state writes to the method fields
      obtain ⟨start, last, token⟩ := holds
      simp only [lineStep, lineHost, lineHostEnd]
      repeat' refine iteInduction (fun _ => ?_) fun _ => ?_
      all_goals first
        | trivial
        | exact ⟨start, last, token.later [c]⟩
        | exact ⟨start, last, token⟩

end Turn

/-- The method token of a line which one call accepts. -/
theorem methodRead_of_osOk {b b' : OsBuf} (wf : b.WellFormed) {r : HttpRequest}
    (accepted : httpParseRequestLine .fresh b = (.osOk, r, b')) :
    ∃ start last,
      MethodRead b.pos (b'.received.take b'.pos) r.methodMarks start last := by
  have base : (b.received.take b.pos).length = b.pos := by
    rw [List.length_take, wf.received_length, min_eq_left wf.pos_le]
  obtain ⟨p, r', rfl, -, -, rfl, method⟩ :=
    done_of_osOk wf accepted (MethodInvariant b.pos) (MethodKnown b.pos)
      ⟨base.ge, rfl, by rw [base]; simp⟩
      fun seen ch state r read holds => lineStep_keepsMethod wf ch state read holds
  exact method

end Http
end OstrichServer
