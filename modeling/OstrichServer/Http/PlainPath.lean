import OstrichServer.Http.Accepted
import OstrichServer.Http.RequestHandler

/-!
# The URI flags are sound

The URI states raise `complex_uri`, `quoted_uri` and `space_in_uri` while the path goes by.  The
invariant of this file relates each state to the target bytes already read, so that an accepted
line whose flags are clear has a path without escapes and dot segments.
-/

namespace OstrichServer
namespace Http

open StoppingReader

/-! ## Plain paths -/

/-- A path that needs neither decoding nor merging. -/
structure PlainPath (path : List UInt8) : Prop where
  slash : [chr '/'] <+: path
  percent : chr '%' ∉ path
  hash : chr '#' ∉ path
  doubleSlash : ¬ [chr '/', chr '/'] <:+: path
  slashDot : ¬ [chr '/', chr '.'] <:+: path

/-- A segment "." or ".." after a slash. -/
def HasDotSegment (path : List UInt8) : Prop :=
  ∃ front segment back, path = front ++ [chr '/'] ++ segment ++ back ∧
    (segment = [chr '.'] ∨ segment = [chr '.', chr '.']) ∧ (back = [] ∨ [chr '/'] <+: back)

namespace PlainPath

theorem root : PlainPath [chr '/'] :=
  ⟨List.prefix_refl _, by decide, by decide, by decide, by decide⟩

theorem not_hasDotSegment {path : List UInt8} (plain : PlainPath path) : ¬ HasDotSegment path := by
  rintro ⟨front, segment, back, rfl, dots, -⟩
  apply plain.slashDot
  rcases dots with rfl | rfl
  · exact ⟨front, back, by simp⟩
  · exact ⟨front, chr '.' :: back, by simp⟩

/-- A path stays plain when a byte follows which is no escape and starts no empty or dot
segment. -/
theorem concat {path : List UInt8} {c : UInt8} (plain : PlainPath path) (percent : c ≠ chr '%')
    (hash : c ≠ chr '#')
    (segment : path.getLast? = some (chr '/') → c ≠ chr '/' ∧ c ≠ chr '.') :
    PlainPath (path ++ [c]) where
  slash := plain.slash.trans (List.prefix_append _ _)
  percent := by
    rw [List.mem_append, List.mem_singleton, not_or]
    exact ⟨plain.percent, percent.symm⟩
  hash := by
    rw [List.mem_append, List.mem_singleton, not_or]
    exact ⟨plain.hash, hash.symm⟩
  doubleSlash := by
    rw [pair_infix_concat]
    rintro (inside | ⟨last, same⟩)
    · exact plain.doubleSlash inside
    · exact (segment last).1 same.symm
  slashDot := by
    rw [pair_infix_concat]
    rintro (inside | ⟨last, same⟩)
    · exact plain.slashDot inside
    · exact (segment last).2 same.symm

theorem append_spaces {path : List UInt8} (plain : PlainPath path) (count : Nat) :
    PlainPath (path ++ List.replicate count sp) := by
  induction count with
  | zero => simpa using plain
  | succ count induction =>
      rw [List.replicate_succ', ← List.append_assoc]
      exact induction.concat (by decide) (by decide) fun _ => by decide

end PlainPath

/-! ## The target -/

/-- Where the path ends: at the '?' before the arguments, or at the end of the target. -/
def pathStop (args : Option Nat) (stop : Nat) : Nat :=
  match args with
  | some args => args - 1
  | none => stop

/-- What the flags say about a target at `start` which has been read up to `stop`; `clear` says
that neither `complex_uri` nor `quoted_uri` is set. -/
structure Target (seen : List UInt8) (start stop : Nat) (args : Option Nat) (space : Bool)
    (clear : Prop) : Prop where
  start_lt : start < stop
  stop_le : stop ≤ seen.length
  question : ∀ p, args = some p → start < p - 1 ∧ p ≤ stop ∧ slice seen (p - 1) p = [chr '?']
  space : space = true ↔ sp ∈ slice seen start stop
  plain : clear → PlainPath (slice seen start (pathStop args stop))

namespace Target

variable {seen : List UInt8} {start stop : Nat} {args : Option Nat} {space : Bool} {clear : Prop}

theorem pathStop_le (target : Target seen start stop args space clear) :
    pathStop args stop ≤ stop := by
  cases args with
  | none => exact le_rfl
  | some p =>
      have := (target.question p rfl).2.1
      simp only [pathStop]
      omega

/-- Later bytes leave a target that has ended alone. -/
theorem append (target : Target seen start stop args space clear) (later : List UInt8) :
    Target (seen ++ later) start stop args space clear where
  start_lt := target.start_lt
  stop_le := by
    rw [List.length_append]
    exact Nat.le_add_right_of_le target.stop_le
  question p here := by
    obtain ⟨after, before, mark⟩ := target.question p here
    exact ⟨after, before, by rw [slice_append _ (before.trans target.stop_le), mark]⟩
  space := by rw [slice_append _ target.stop_le, target.space]
  plain clear := by
    rw [slice_append _ (target.pathStop_le.trans target.stop_le)]
    exact target.plain clear

/-- The target begins with a slash. -/
theorem slash (seen : List UInt8) (clear : Prop) :
    Target (seen ++ [chr '/']) seen.length (seen.length + 1) none false clear where
  start_lt := Nat.lt_succ_self _
  stop_le := by simp
  question p here := by cases here
  space := by
    rw [slice_last]
    decide
  plain _ := by
    simp only [pathStop]
    rw [slice_last]
    exact .root

/-- One more byte of the target, other than a space. -/
theorem concat {clear' : Prop} (target : Target seen start seen.length args space clear) {c : UInt8}
    (not_space : c ≠ sp)
    (plain : clear' → PlainPath (slice (seen ++ [c]) start (pathStop args (seen.length + 1)))) :
    Target (seen ++ [c]) start (seen.length + 1) args space clear' where
  start_lt := Nat.lt_succ_of_lt target.start_lt
  stop_le := by simp
  question p here := by
    obtain ⟨after, before, mark⟩ := target.question p here
    exact ⟨after, by omega, by rw [slice_append _ before, mark]⟩
  space := by
    rw [slice_concat_last c target.start_lt.le, List.mem_append, target.space]
    simp [not_space.symm]
  plain := plain

/-- A byte of the path. -/
theorem concat_path (target : Target seen start seen.length none space clear) {c : UInt8}
    (not_space : c ≠ sp) (percent : c ≠ chr '%') (hash : c ≠ chr '#')
    (segment : (slice seen start seen.length).getLast? = some (chr '/') →
      c ≠ chr '/' ∧ c ≠ chr '.') :
    Target (seen ++ [c]) start (seen.length + 1) none space clear := by
  refine target.concat not_space fun is_clear => ?_
  rw [pathStop, slice_concat_last c target.start_lt.le]
  exact (target.plain is_clear).concat percent hash segment

/-- A byte which raises a flag. -/
theorem concat_flagged {clear' : Prop} (target : Target seen start seen.length args space clear)
    {c : UInt8} (not_space : c ≠ sp) (flagged : ¬ clear') :
    Target (seen ++ [c]) start (seen.length + 1) args space clear' :=
  target.concat not_space fun is_clear => (flagged is_clear).elim

/-- A byte of the arguments. -/
theorem concat_args (target : Target seen start seen.length args space clear) {c : UInt8}
    (not_space : c ≠ sp) (given : clear → args ≠ none) :
    Target (seen ++ [c]) start (seen.length + 1) args space clear := by
  refine target.concat not_space fun is_clear => ?_
  obtain ⟨p, rfl⟩ := Option.ne_none_iff_exists'.mp (given is_clear)
  have before := (target.question p rfl).2.1
  have plain := target.plain is_clear
  simp only [pathStop] at plain ⊢
  rwa [slice_append _ (by omega)]

/-- The '?' before the arguments. -/
theorem question_mark (target : Target seen start seen.length none space clear) :
    Target (seen ++ [chr '?']) start (seen.length + 1) (some (seen.length + 1)) space clear where
  start_lt := Nat.lt_succ_of_lt target.start_lt
  stop_le := by simp
  question p here := by
    obtain rfl := Option.some.inj here
    exact ⟨target.start_lt, le_rfl, slice_last seen _⟩
  space := by
    rw [slice_concat_last _ target.start_lt.le, List.mem_append, target.space]
    simp +decide
  plain is_clear := by
    change PlainPath (slice _ start (seen.length + 1 - 1))
    rw [Nat.add_sub_cancel, slice_append _ le_rfl]
    exact target.plain is_clear

/-- The spaces after the target turn out to be a part of it. -/
theorem spaces (target : Target seen start stop args space clear) (more : stop < seen.length)
    (blank : seen.drop stop = List.replicate (seen.length - stop) sp) :
    Target seen start seen.length args true clear := by
  have parts : slice seen start seen.length =
      slice seen start stop ++ List.replicate (seen.length - stop) sp := by
    have split : seen = seen.take stop ++ seen.drop stop := (List.take_append_drop _ _).symm
    have inside : start ≤ (seen.take stop).length := by
      rw [List.length_take, min_eq_left target.stop_le]
      exact target.start_lt.le
    rw [slice, List.take_length, ← blank]
    conv_lhs => rw [split]
    rw [List.drop_append_of_le_length inside]
    rfl
  refine ⟨target.start_lt.trans more, le_rfl, fun p here => ?_, ?_, fun is_clear => ?_⟩
  · obtain ⟨after, before, mark⟩ := target.question p here
    exact ⟨after, by omega, mark⟩
  · rw [parts]
    simp only [List.mem_append, List.mem_replicate, true_iff]
    exact Or.inr ⟨by omega, trivial⟩
  · cases args with
    | none =>
        simp only [pathStop]
        rw [parts]
        exact (target.plain is_clear).append_spaces _
    | some p => exact target.plain is_clear

end Target

/-! ## The invariant -/

/-- Neither `complex_uri` nor `quoted_uri` is set. -/
def HttpRequest.Clear (r : HttpRequest) : Prop := r.complexUri = false ∧ r.quotedUri = false

/-- No byte of a target has been read. -/
def BeforeTarget (r : HttpRequest) : Prop := r.argsStart = none ∧ r.spaceInUri = false

/-- The schema and a first slash have been read. -/
def AfterSchema (seen : List UInt8) (r : HttpRequest) : Prop :=
  BeforeTarget r ∧ ∃ stop, r.schemaEnd = some stop ∧ stop + 2 ≤ seen.length ∧
    slice seen (stop + 1) (stop + 2) = [chr '/']

/-- The target started and goes on. -/
def InTarget (seen : List UInt8) (r : HttpRequest) : Prop :=
  ∃ start, r.uriStart = some start ∧
    Target seen start seen.length r.argsStart r.spaceInUri r.Clear

/-- The target has ended. -/
def TargetEnded (seen : List UInt8) (r : HttpRequest) : Prop :=
  ∃ start stop, r.uriStart = some start ∧ r.uriEnd = some stop ∧
    Target seen start stop r.argsStart r.spaceInUri r.Clear

/-- The target has ended unless the spaces read after it are a part of it. -/
def InSpaces (seen : List UInt8) (r : HttpRequest) : Prop :=
  ∃ start stop, r.uriStart = some start ∧ r.uriEnd = some stop ∧
    Target seen start stop r.argsStart r.spaceInUri r.Clear ∧
    stop < seen.length ∧ seen.drop stop = List.replicate (seen.length - stop) sp

/-- What a parser state says about the target bytes among `seen`. -/
def TargetInvariant (seen : List UInt8) (state : LineState) (r : HttpRequest) : Prop :=
  match state with
  | .swStart | .swMethod | .swSpacesBeforeUri | .swSchema => BeforeTarget r
  | .swSchemaSlash =>
      BeforeTarget r ∧ ∃ stop, r.schemaEnd = some stop ∧ seen.length = stop + 1
  | .swSchemaSlashSlash | .swHostStart | .swHost | .swHostEnd | .swHostIpLiteral | .swPort =>
      AfterSchema seen r
  | .swAfterSlashInUri => InTarget seen r ∧ r.argsStart = none
  | .swCheckUri =>
      InTarget seen r ∧ r.argsStart = none ∧ seen.getLast? ≠ some (chr '/')
  | .swUri => InTarget seen r ∧ (r.Clear → r.argsStart ≠ none)
  | .swCheckUriHttp09 => InSpaces seen r ∧ r.argsStart = none
  | .swHttp09 => InSpaces seen r ∧ (r.Clear → r.argsStart ≠ none)
  | _ => TargetEnded seen r

/-! ## Turns of the `switch` -/

section Turn

variable {seen : List UInt8} {r : HttpRequest}

theorem AfterSchema.later (after : AfterSchema seen r) (c : UInt8) :
    AfterSchema (seen ++ [c]) r := by
  obtain ⟨before, stop, here, inside, slash⟩ := after
  refine ⟨before, stop, here, by simp; omega, ?_⟩
  rw [slice_append _ inside, slash]

theorem TargetEnded.later (ended : TargetEnded seen r) (c : UInt8) :
    TargetEnded (seen ++ [c]) r := by
  obtain ⟨start, stop, here, there, target⟩ := ended
  exact ⟨start, stop, here, there, target.append [c]⟩

/-- The first slash of a path. -/
theorem BeforeTarget.slash (before : BeforeTarget r) :
    InTarget (seen ++ [chr '/']) (r.setUriStart seen.length) := by
  refine ⟨seen.length, rfl, ?_⟩
  change Target _ _ _ r.argsStart r.spaceInUri _
  rw [before.1, before.2, List.length_append]
  exact .slash seen _

/-- The slash of the schema stands for an absent path. -/
theorem AfterSchema.uriToSlash (after : AfterSchema seen r) (c : UInt8) :
    TargetEnded (seen ++ [c]) r.setUriToSlash := by
  obtain ⟨before, stop, here, inside, slash⟩ := after
  refine ⟨stop + 1, stop + 2, by simp [HttpRequest.setUriToSlash, here],
    by simp [HttpRequest.setUriToSlash, here], ?_⟩
  change Target _ _ _ r.argsStart r.spaceInUri _
  rw [before.1, before.2]
  refine Target.append ⟨by omega, inside, (fun p given => by cases given), ?_, fun _ => ?_⟩ [c]
  · rw [slash]
    decide
  · rw [pathStop, slash]
    exact .root

theorem InTarget.ended (target : InTarget seen r) (c : UInt8) :
    TargetEnded (seen ++ [c]) (r.setUriEnd seen.length) := by
  obtain ⟨start, here, target⟩ := target
  exact ⟨start, seen.length, here, rfl, target.append [c]⟩

/-- A space after the target. -/
theorem InTarget.space (target : InTarget seen r) :
    InSpaces (seen ++ [sp]) (r.setUriEnd seen.length) := by
  obtain ⟨start, here, target⟩ := target
  refine ⟨start, seen.length, here, rfl, target.append [sp], by simp, ?_⟩
  simp

theorem InSpaces.space (spaces : InSpaces seen r) : InSpaces (seen ++ [sp]) r := by
  obtain ⟨start, stop, here, there, target, more, blank⟩ := spaces
  refine ⟨start, stop, here, there, target.append [sp], by simp; omega, ?_⟩
  rw [List.drop_append_of_le_length more.le, blank, List.length_append, List.length_singleton,
    Nat.succ_sub more.le, List.replicate_succ']

theorem InSpaces.ended (spaces : InSpaces seen r) (c : UInt8) : TargetEnded (seen ++ [c]) r := by
  obtain ⟨start, stop, here, there, target, -⟩ := spaces
  exact ⟨start, stop, here, there, target.append [c]⟩

/-- The spaces are a part of the target after all. -/
theorem InSpaces.back (spaces : InSpaces seen r) :
    InTarget seen r.setSpaceInUri ∧ seen.getLast? ≠ some (chr '/') := by
  obtain ⟨start, stop, here, there, target, more, blank⟩ := spaces
  refine ⟨⟨start, here, target.spaces more blank⟩, ?_⟩
  have last : seen.getLast? = (seen.drop stop).getLast? := by
    rw [List.getLast?_drop, if_neg (by omega)]
  rw [last, blank, List.getLast?_replicate, if_neg (by omega)]
  decide

/-- A byte of the path in a state that watches it. -/
theorem InTarget.path (target : InTarget seen r) (no_args : r.argsStart = none) {c : UInt8}
    (not_space : c ≠ sp) (percent : c ≠ chr '%') (hash : c ≠ chr '#')
    (segment : seen.getLast? = some (chr '/') → c ≠ chr '/' ∧ c ≠ chr '.') :
    InTarget (seen ++ [c]) r := by
  obtain ⟨start, here, target⟩ := target
  refine ⟨start, here, ?_⟩
  rw [no_args] at target ⊢
  rw [List.length_append]
  refine target.concat_path not_space percent hash fun last => segment ?_
  rwa [slice, List.take_length, List.getLast?_drop, if_neg (by have := target.start_lt; omega)]
    at last

/-- A byte which raises a flag. -/
theorem InTarget.flagged {r' : HttpRequest} (target : InTarget seen r) {c : UInt8}
    (not_space : c ≠ sp) (start : r'.uriStart = r.uriStart) (args : r'.argsStart = r.argsStart)
    (space : r'.spaceInUri = r.spaceInUri) (flagged : ¬ r'.Clear) :
    InTarget (seen ++ [c]) r' ∧ (r'.Clear → r'.argsStart ≠ none) := by
  obtain ⟨first, here, target⟩ := target
  refine ⟨⟨first, start.trans here, ?_⟩, fun clear => (flagged clear).elim⟩
  rw [args, space, List.length_append]
  exact target.concat_flagged not_space flagged

/-- The '?' of the target. -/
theorem InTarget.question (target : InTarget seen r) (no_args : r.argsStart = none) :
    InTarget (seen ++ [chr '?']) (r.setArgsStart (seen.length + 1)) ∧
      (r.Clear → some (seen.length + 1) ≠ none) := by
  obtain ⟨start, here, target⟩ := target
  refine ⟨⟨start, here, ?_⟩, fun _ => Option.some_ne_none _⟩
  rw [no_args] at target
  rw [List.length_append]
  exact target.question_mark

/-- A byte after the path. -/
theorem InTarget.args (target : InTarget seen r) (given : r.Clear → r.argsStart ≠ none) {c : UInt8}
    (not_space : c ≠ sp) : InTarget (seen ++ [c]) r := by
  obtain ⟨start, here, target⟩ := target
  refine ⟨start, here, ?_⟩
  rw [List.length_append]
  exact target.concat_args not_space given

/-- One examination of `c` at the end of `seen` keeps the invariant. -/
def KeepsTarget (seen : List UInt8) (c : UInt8) : LineMove → Prop :=
  LineMove.Ensures (TargetInvariant (seen ++ [c])) (TargetInvariant seen) (fun _ _ => True)
    (TargetEnded (seen ++ [c]))

private theorem usual_ne : ∀ c, isUsual c = true →
    c ≠ sp ∧ c ≠ chr '%' ∧ c ≠ chr '#' ∧ c ≠ chr '/' ∧ c ≠ chr '.' := by
  decide +kernel

private theorem not_clear_complexUri : ¬ r.setComplexUri.Clear := fun clear => by cases clear.1

private theorem not_clear_quotedUri : ¬ r.setQuotedUri.Clear := fun clear => by cases clear.2

private theorem swAfterSlashInUri_keeps (b : OsBuf) (p : Nat) (c : UInt8) (same : p = seen.length)
    (holds : TargetInvariant seen .swAfterSlashInUri r) :
    KeepsTarget seen c (lineStep b p c .swAfterSlashInUri r) := by
  subst same
  obtain ⟨target, no_args⟩ := holds
  have watched : c ≠ sp → c ≠ chr '%' → c ≠ chr '#' → c ≠ chr '/' → c ≠ chr '.' →
      TargetInvariant (seen ++ [c]) .swCheckUri r := by
    intro not_space percent hash slash dot
    exact ⟨target.path no_args not_space percent hash fun _ => ⟨slash, dot⟩, no_args,
      by simpa using slash⟩
  simp only [lineStep]
  refine iteInduction (fun is_usual => ?_) fun _ =>
    iteInduction (fun space => ?_) fun not_space =>
      iteInduction (fun ret => ?_) fun _ =>
        iteInduction (fun feed => ?_) fun _ =>
          iteInduction (fun dot => ?_) fun not_dot =>
            iteInduction (fun percent => ?_) fun not_percent =>
              iteInduction (fun slash => ?_) fun not_slash =>
                iteInduction (fun question => ?_) fun _ =>
                  iteInduction (fun hash => ?_) fun not_hash =>
                    iteInduction (fun plus => ?_) fun _ =>
                      iteInduction (fun nul => ?_) fun _ => ?_
  · obtain ⟨not_space, percent, hash, slash, dot⟩ := usual_ne c is_usual
    exact watched not_space percent hash slash dot
  · subst space
    exact ⟨target.space, no_args⟩
  · exact target.ended c
  · exact target.ended c
  · exact target.flagged not_space rfl rfl rfl not_clear_complexUri
  · exact target.flagged not_space rfl rfl rfl not_clear_quotedUri
  · exact target.flagged not_space rfl rfl rfl not_clear_complexUri
  · subst question
    exact target.question no_args
  · exact target.flagged not_space rfl rfl rfl not_clear_complexUri
  · exact ⟨target.path no_args not_space not_percent not_hash fun _ => ⟨not_slash, not_dot⟩,
      no_args⟩
  · trivial
  · exact watched not_space not_percent not_hash not_slash not_dot

private theorem swCheckUri_keeps (b : OsBuf) (p : Nat) (c : UInt8) (same : p = seen.length)
    (holds : TargetInvariant seen .swCheckUri r) :
    KeepsTarget seen c (lineStep b p c .swCheckUri r) := by
  subst same
  obtain ⟨target, no_args, last⟩ := holds
  have path : c ≠ sp → c ≠ chr '%' → c ≠ chr '#' → InTarget (seen ++ [c]) r := by
    intro not_space percent hash
    exact target.path no_args not_space percent hash fun slash => (last slash).elim
  have watched : c ≠ sp → c ≠ chr '%' → c ≠ chr '#' → c ≠ chr '/' →
      TargetInvariant (seen ++ [c]) .swCheckUri r := by
    intro not_space percent hash slash
    exact ⟨path not_space percent hash, no_args, by simpa using slash⟩
  simp only [lineStep]
  refine iteInduction (fun is_usual => ?_) fun _ =>
    iteInduction (fun slash => ?_) fun not_slash =>
      iteInduction (fun dot => ?_) fun _ =>
        iteInduction (fun space => ?_) fun not_space =>
          iteInduction (fun ret => ?_) fun _ =>
            iteInduction (fun feed => ?_) fun _ =>
              iteInduction (fun percent => ?_) fun not_percent =>
                iteInduction (fun question => ?_) fun _ =>
                  iteInduction (fun hash => ?_) fun not_hash =>
                    iteInduction (fun plus => ?_) fun _ =>
                      iteInduction (fun nul => ?_) fun _ => ?_
  · obtain ⟨not_space, percent, hash, slash, -⟩ := usual_ne c is_usual
    exact watched not_space percent hash slash
  · exact ⟨path (by rw [slash]; decide) (by rw [slash]; decide) (by rw [slash]; decide), no_args⟩
  · exact watched (by rw [dot]; decide) (by rw [dot]; decide) (by rw [dot]; decide) not_slash
  · subst space
    exact ⟨target.space, no_args⟩
  · exact target.ended c
  · exact target.ended c
  · exact target.flagged not_space rfl rfl rfl not_clear_quotedUri
  · subst question
    exact target.question no_args
  · exact target.flagged not_space rfl rfl rfl not_clear_complexUri
  · exact watched not_space not_percent not_hash not_slash
  · trivial
  · exact watched not_space not_percent not_hash not_slash

private theorem swUri_keeps (b : OsBuf) (p : Nat) (c : UInt8) (same : p = seen.length)
    (holds : TargetInvariant seen .swUri r) :
    KeepsTarget seen c (lineStep b p c .swUri r) := by
  subst same
  obtain ⟨target, given⟩ := holds
  simp only [lineStep]
  refine iteInduction (fun is_usual => ?_) fun _ =>
    iteInduction (fun space => ?_) fun not_space =>
      iteInduction (fun ret => ?_) fun _ =>
        iteInduction (fun feed => ?_) fun _ =>
          iteInduction (fun hash => ?_) fun _ =>
            iteInduction (fun nul => ?_) fun _ => ?_
  · exact ⟨target.args given (usual_ne c is_usual).1, given⟩
  · subst space
    exact ⟨target.space, given⟩
  · exact target.ended c
  · exact target.ended c
  · exact target.flagged not_space rfl rfl rfl not_clear_complexUri
  · trivial
  · exact ⟨target.args given not_space, given⟩

/-- Both look-ahead states. -/
private theorem lookAhead_keeps (p : Nat) (c : UInt8) {state resume : LineState}
    (spaces : InSpaces seen r)
    (here : ∀ seen r', InSpaces seen r' → r'.argsStart = r.argsStart →
      (r'.Clear ↔ r.Clear) → TargetInvariant seen state r')
    (there : ∀ seen r', InTarget seen r' → seen.getLast? ≠ some (chr '/') →
      r'.argsStart = r.argsStart → (r'.Clear ↔ r.Clear) → TargetInvariant seen resume r') :
    KeepsTarget seen c
      (if c = sp then LineMove.next state r
      else if c = cr then .next .swAlmostDone (r.setHttpMinor 9)
      else if c = lf then .done (r.setHttpMinor 9)
      else if c = chr 'H' then .next .swHttpH (r.setHttpProtocolData p)
      else .back resume r.setSpaceInUri) := by
  refine iteInduction (fun space => ?_) fun _ =>
    iteInduction (fun ret => ?_) fun _ =>
      iteInduction (fun feed => ?_) fun _ =>
        iteInduction (fun h => ?_) fun _ => ?_
  · subst space
    exact here _ _ spaces.space rfl Iff.rfl
  · exact spaces.ended c
  · exact spaces.ended c
  · exact spaces.ended c
  · exact there _ _ spaces.back.1 spaces.back.2 rfl Iff.rfl

private theorem lineHostEnd_keeps (p : Nat) (c : UInt8) (same : p = seen.length)
    (after : AfterSchema seen r) : KeepsTarget seen c (lineHostEnd p c r) := by
  subst same
  simp only [lineHostEnd]
  refine iteInduction (fun colon => ?_) fun _ =>
    iteInduction (fun slash => ?_) fun _ =>
      iteInduction (fun space => ?_) fun _ => ?_
  · exact after.later c
  · subst slash
    exact ⟨after.1.slash, after.1.1⟩
  · exact after.uriToSlash c
  · trivial

private theorem lineHost_keeps (p : Nat) (c : UInt8) (same : p = seen.length)
    (after : AfterSchema seen r) : KeepsTarget seen c (lineHost p c r) := by
  simp only [lineHost]
  refine iteInduction (fun letter => ?_) fun _ => iteInduction (fun other => ?_) fun _ => ?_
  · exact after.later c
  · exact after.later c
  · exact lineHostEnd_keeps p c same after

/-- Every turn of the `switch` keeps the invariant. -/
theorem lineStep_keepsTarget (b : OsBuf) (p : Nat) (c : UInt8) (state : LineState)
    (same : p = seen.length) (holds : TargetInvariant seen state r) :
    KeepsTarget seen c (lineStep b p c state r) := by
  cases state with
  | swAfterSlashInUri => exact swAfterSlashInUri_keeps b p c same holds
  | swCheckUri => exact swCheckUri_keeps b p c same holds
  | swUri => exact swUri_keeps b p c same holds
  | swCheckUriHttp09 =>
      refine lookAhead_keeps p c holds.1 (fun _ _ spaces args _ => ?_)
        fun _ _ target last args _ => ?_
      · exact ⟨spaces, args.trans holds.2⟩
      · exact ⟨target, args.trans holds.2, last⟩
  | swHttp09 =>
      refine lookAhead_keeps p c holds.1 (fun _ _ spaces args clear => ?_)
        fun _ _ target _ args clear => ?_
      · exact ⟨spaces, fun is_clear => args ▸ holds.2 (clear.mp is_clear)⟩
      · exact ⟨target, fun is_clear => args ▸ holds.2 (clear.mp is_clear)⟩
  | swHostStart =>
      simp only [lineStep]
      refine iteInduction (fun bracket => ?_) fun _ => ?_
      · exact AfterSchema.later holds c
      · exact lineHost_keeps p c same holds
  | swHost => exact lineHost_keeps p c same holds
  | swHostEnd => exact lineHostEnd_keeps p c same holds
  | swSpacesBeforeUri =>
      subst same
      simp only [lineStep]
      refine iteInduction (fun slash => ?_) fun _ =>
        iteInduction (fun letter => ?_) fun _ => iteInduction (fun space => ?_) fun _ => ?_
      · subst slash
        exact ⟨BeforeTarget.slash holds, holds.1⟩
      · exact holds
      · exact holds
      · trivial
  | swSchema =>
      subst same
      simp only [lineStep]
      refine iteInduction (fun letter => ?_) fun _ => iteInduction (fun colon => ?_) fun _ => ?_
      · exact holds
      · exact ⟨holds, seen.length, rfl, by simp⟩
      · trivial
  | swSchemaSlash =>
      subst same
      obtain ⟨before, stop, here, length⟩ := holds
      simp only [lineStep]
      refine iteInduction (fun slash => ?_) fun _ => trivial
      subst slash
      refine ⟨before, stop, here, by simp [length], ?_⟩
      have last := slice_last seen (chr '/')
      rwa [length] at last
  | swPort =>
      subst same
      simp only [lineStep]
      refine iteInduction (fun digit => ?_) fun _ =>
        iteInduction (fun slash => ?_) fun _ => iteInduction (fun space => ?_) fun _ => ?_
      · exact AfterSchema.later holds c
      · subst slash
        exact ⟨BeforeTarget.slash holds.1, holds.1.1⟩
      · exact AfterSchema.uriToSlash holds c
      · trivial
  | swStart | swMethod =>
      simp only [lineStep]
      repeat' refine iteInduction (fun _ => ?_) fun _ => ?_
      all_goals first | exact holds | trivial
  | swSchemaSlashSlash | swHostIpLiteral =>
      simp only [lineStep]
      repeat' refine iteInduction (fun _ => ?_) fun _ => ?_
      all_goals first | exact AfterSchema.later holds c | trivial
  | _ =>
      -- the target has ended and no later state writes to it
      simp only [lineStep]
      repeat' refine iteInduction (fun _ => ?_) fun _ => ?_
      all_goals first | exact TargetEnded.later holds c | trivial

end Turn

/-! ## Accepted lines -/

/-- The flags of a request line that one call accepts. -/
theorem target_of_osOk {b b' : OsBuf} (wf : b.WellFormed) {r : HttpRequest}
    (accepted : httpParseRequestLine .fresh b = (.osOk, r, b')) :
    ∃ start stop, r.uriStart = some start ∧ r.uriEnd = some stop ∧
      Target b'.received start stop r.argsStart r.spaceInUri r.Clear := by
  obtain ⟨p, r', rfl, -, -, rfl, start, stop, here, there, target⟩ :=
    done_of_osOk wf accepted TargetInvariant TargetEnded ⟨rfl, rfl⟩
      fun seen ch state r _ holds => lineStep_keepsTarget b _ ch state rfl holds
  refine ⟨start, stop, here, there, ?_⟩
  change Target b.received start stop r'.argsStart r'.spaceInUri _
  rw [← List.take_append_drop (p + 1) b.received]
  exact target.append _

/-- Without flags the request uses the path in place. -/
theorem httpProcessRequestUri_plain {r : HttpRequest} {start stop : Nat}
    (here : r.uriStart = some start) (there : r.uriEnd = some stop)
    (complex : r.complexUri = false) (quoted : r.quotedUri = false) :
    (httpProcessRequestUri r).uri = ⟨.header start, pathStop r.argsStart stop - start⟩ := by
  cases args : r.argsStart <;>
    simp [httpProcessRequestUri, pathStop, dataPtr, ptrDiff, here, there, complex, quoted, args]

/-- An accepted line with clear flags has a plain path, which `http_process_request_uri` uses in
place, and `space_in_uri` tells whether the target contains a space. -/
theorem plain_path_flags (b b' : OsBuf) (chunks : List (List UInt8)) (r : HttpRequest)
    (wf : b.WellFormed) (room : chunks.flatten.length ≤ b.end - b.last)
    (accepted : resumeRequestLine .fresh b chunks = (.osOk, r, b')) :
    ∃ start stop, r.uriStart = some start ∧ r.uriEnd = some stop ∧
      (r.complexUri = false → r.quotedUri = false →
        (∀ p, r.argsStart = some p → slice b'.received (p - 1) p = [chr '?']) ∧
        PlainPath (slice b'.received start (pathStop r.argsStart stop)) ∧
        ¬ HasDotSegment (slice b'.received start (pathStop r.argsStart stop)) ∧
        (httpProcessRequestUri r).uri = ⟨.header start, pathStop r.argsStart stop - start⟩) ∧
      (r.spaceInUri = true ↔ sp ∈ slice b'.received start stop) := by
  obtain ⟨more, fits, whole⟩ := resumeRequestLine_osOk wf room accepted
  obtain ⟨start, stop, here, there, target⟩ := target_of_osOk (wf.append fits) whole
  refine ⟨start, stop, here, there, fun complex quoted => ?_, target.space⟩
  have plain := target.plain ⟨complex, quoted⟩
  refine ⟨fun p given => (target.question p given).2.2, plain, plain.not_hasDotSegment, ?_⟩
  exact httpProcessRequestUri_plain here there complex quoted

/-- A buffer which holds the first two bytes of `GET /` and a line feed. -/
def twoBytes : OsBuf := (OsBuf.zeroed 8).append [chr 'G', chr 'E']

/-- The other bytes arrive before the second call. -/
def twoCalls : LineCode × HttpRequest × OsBuf :=
  resumeRequestLine .fresh twoBytes [[chr 'T', sp, chr '/', lf]]

/-- The request and the buffer between the two calls. -/
def betweenCalls : HttpRequest × OsBuf :=
  ({ HttpRequest.fresh with requestStart := some 0, state := .swMethod },
    { twoBytes with pos := 2 })

theorem plain_path_flags_twoCalls : ∃ start stop,
    twoCalls.2.1.uriStart = some start ∧ twoCalls.2.1.uriEnd = some stop ∧
      PlainPath (slice twoCalls.2.2.received start (pathStop twoCalls.2.1.argsStart stop)) := by
  have wf : twoBytes.WellFormed := (OsBuf.zeroed_wellFormed 8).append (by decide)
  have first : httpParseRequestLine .fresh twoBytes =
      (.osAgain, betweenCalls.1, betweenCalls.2) := by
    rw [httpParseRequestLine_eq wf]
    decide +kernel
  have wf₁ : betweenCalls.2.WellFormed := ⟨by decide, by decide, rfl⟩
  have value : twoCalls = lineResult (betweenCalls.2.append [chr 'T', sp, chr '/', lf])
      (lineRun betweenCalls.1 (betweenCalls.2.append [chr 'T', sp, chr '/', lf])) := by
    rw [twoCalls, resumeRequestLine, first]
    exact httpParseRequestLine_eq (wf₁.append (by decide)) _
  have code : twoCalls.1 = .osOk := by
    rw [value]
    decide +kernel
  have complex : twoCalls.2.1.complexUri = false := by
    rw [value]
    decide +kernel
  have quoted : twoCalls.2.1.quotedUri = false := by
    rw [value]
    decide +kernel
  obtain ⟨start, stop, here, there, plain, -⟩ := plain_path_flags twoBytes twoCalls.2.2
    [[chr 'T', sp, chr '/', lf]] twoCalls.2.1 wf (by decide) (Prod.ext code rfl)
  exact ⟨start, stop, here, there, (plain complex quoted).2.1⟩

end Http
end OstrichServer
