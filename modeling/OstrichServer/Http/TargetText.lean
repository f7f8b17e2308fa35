import OstrichServer.Http.PlainPath
import Mathlib.Data.List.DropRight

/-!
# The text of a request target

What a request target says, apart from any parser: its path, its arguments, the extension of its
last segment, and the paths on which the URI states of `http_parse_request_line` keep watching
for a '?'.
-/

namespace OstrichServer
namespace Http

/-! ## Components -/

/-- The path of a target: its bytes up to the first '?'. -/
def pathOf (target : List UInt8) : List UInt8 := target.takeWhile (· ≠ chr '?')

/-- The arguments of a target: its bytes after the first '?'. -/
def argsOf (target : List UInt8) : List UInt8 := (target.dropWhile (· ≠ chr '?')).tail

/-- The bytes after the last '/' of a path. -/
def lastSegment (path : List UInt8) : List UInt8 := path.rtakeWhile (· ≠ chr '/')

/-- The bytes after the last '.' of the last segment; none if that segment has no '.'. -/
def extensionOf (path : List UInt8) : List UInt8 :=
  if chr '.' ∈ lastSegment path then (lastSegment path).rtakeWhile (· ≠ chr '.') else []

theorem pathOf_of_notMem {target : List UInt8} (none : chr '?' ∉ target) :
    pathOf target = target ∧ argsOf target = [] := by
  have all : ∀ c ∈ target, decide (c ≠ chr '?') = true := by
    intro c member
    rw [decide_eq_true_iff]
    rintro rfl
    exact none member
  refine ⟨List.takeWhile_eq_self_iff.mpr all, ?_⟩
  rw [argsOf, List.dropWhile_eq_nil_iff.mpr all, List.tail_nil]

theorem pathOf_append {path : List UInt8} (args : List UInt8) (none : chr '?' ∉ path) :
    pathOf (path ++ chr '?' :: args) = path ∧ argsOf (path ++ chr '?' :: args) = args := by
  have all : ∀ c ∈ path, decide (c ≠ chr '?') = true := by
    intro c member
    rw [decide_eq_true_iff]
    rintro rfl
    exact none member
  refine ⟨?_, ?_⟩
  · rw [pathOf, List.takeWhile_append_of_pos all, List.takeWhile_cons_of_neg (by simp),
      List.append_nil]
  · rw [argsOf, List.dropWhile_append_of_pos all, List.dropWhile_cons_of_neg (by simp),
      List.tail_cons]

/-! ## Extensions -/

theorem lastSegment_concat (path : List UInt8) {c : UInt8} (not_slash : c ≠ chr '/') :
    lastSegment (path ++ [c]) = lastSegment path ++ [c] :=
  List.rtakeWhile_concat_pos _ _ _ (decide_eq_true not_slash)

theorem lastSegment_slash (path : List UInt8) : lastSegment (path ++ [chr '/']) = [] :=
  List.rtakeWhile_concat_neg _ _ _ (by simp)

/-- `uri_ext` stands after the last '.' of the last segment of a path at `start`. -/
def ExtAt (start : Nat) (path : List UInt8) : Option Nat → Prop
  | none => chr '.' ∉ lastSegment path
  | some ext => chr '.' ∈ lastSegment path ∧
      ∃ front, path = front ++ (lastSegment path).rtakeWhile (· ≠ chr '.') ∧ front ≠ [] ∧
        ext = start + front.length

namespace ExtAt

variable {start : Nat} {path : List UInt8} {ext : Option Nat}

theorem concat (at_ext : ExtAt start path ext) {c : UInt8} (not_slash : c ≠ chr '/')
    (not_dot : c ≠ chr '.') : ExtAt start (path ++ [c]) ext := by
  have segment := lastSegment_concat path not_slash
  have dots : chr '.' ∈ lastSegment (path ++ [c]) ↔ chr '.' ∈ lastSegment path := by
    rw [segment, List.mem_append, List.mem_singleton]
    exact or_iff_left not_dot.symm
  cases ext with
  | none => exact fun dot => at_ext (dots.mp dot)
  | some ext =>
      obtain ⟨dot, front, split, nonempty, rfl⟩ := at_ext
      refine ⟨dots.mpr dot, front, ?_, nonempty, rfl⟩
      have last : (lastSegment path ++ [c]).rtakeWhile (· ≠ chr '.') =
          (lastSegment path).rtakeWhile (· ≠ chr '.') ++ [c] :=
        List.rtakeWhile_concat_pos _ _ _ (decide_eq_true not_dot)
      rw [segment, last, ← List.append_assoc, ← split]

theorem slash (start : Nat) (path : List UInt8) : ExtAt start (path ++ [chr '/']) none := by
  rw [ExtAt, lastSegment_slash]
  exact List.not_mem_nil

theorem dot (start : Nat) (path : List UInt8) :
    ExtAt start (path ++ [chr '.']) (some (start + path.length + 1)) := by
  have segment := lastSegment_concat path (show chr '.' ≠ chr '/' by decide)
  refine ⟨by rw [segment]; exact List.mem_concat_self, path ++ [chr '.'], ?_, by simp, ?_⟩
  · rw [segment, List.rtakeWhile_concat_neg _ _ _ (by simp), List.append_nil]
  · rw [List.length_append, List.length_singleton, Nat.add_assoc]

/-- The extension lies inside the path, after its first byte. -/
theorem bounds {e : Nat} (at_ext : ExtAt start path (some e)) :
    start < e ∧ e ≤ start + path.length ∧ path.drop (e - start) = extensionOf path := by
  obtain ⟨dot, front, split, nonempty, rfl⟩ := at_ext
  have more := List.length_pos_iff.mpr nonempty
  have total := congrArg List.length split
  rw [List.length_append] at total
  refine ⟨by omega, by omega, ?_⟩
  rw [Nat.add_sub_cancel_left, extensionOf, if_pos dot]
  nth_rewrite 1 [split]
  exact List.drop_left

theorem extensionOf_none (at_ext : ExtAt start path none) : extensionOf path = [] :=
  if_neg at_ext

end ExtAt

/-! ## Watched paths -/

/-- A path whose last bytes are a '/' and any number of '+'. -/
def AfterSlash (path : List UInt8) : Prop :=
  ∃ front count, path = front ++ chr '/' :: List.replicate count (chr '+')

/-- A path in which a '/' and any number of '+' precede a '/' or a '.'. -/
def SlashRun (path : List UInt8) : Prop :=
  ∃ front c back, path = front ++ c :: back ∧ AfterSlash front ∧ (c = chr '/' ∨ c = chr '.')

theorem afterSlash_concat {path : List UInt8} {c : UInt8} :
    AfterSlash (path ++ [c]) ↔ c = chr '/' ∨ AfterSlash path ∧ c = chr '+' := by
  constructor
  · rintro ⟨front, count, split⟩
    cases count with
    | zero =>
        rw [List.replicate_zero] at split
        exact Or.inl (List.append_inj_right' split rfl |> List.head_eq_of_cons_eq)
    | succ count =>
        rw [List.replicate_succ', ← List.cons_append, ← List.append_assoc] at split
        obtain ⟨same, last⟩ := List.append_inj' split rfl
        exact Or.inr ⟨⟨front, count, same⟩, List.head_eq_of_cons_eq last⟩
  · rintro (rfl | ⟨⟨front, count, rfl⟩, rfl⟩)
    · exact ⟨path, 0, rfl⟩
    · exact ⟨front, count + 1, by simp [List.replicate_succ']⟩

theorem slashRun_concat {path : List UInt8} {c : UInt8} :
    SlashRun (path ++ [c]) ↔
      SlashRun path ∨ AfterSlash path ∧ (c = chr '/' ∨ c = chr '.') := by
  constructor
  · rintro ⟨front, c', back, split, slash, offence⟩
    cases back using List.reverseRecOn with
    | nil =>
        obtain ⟨rfl, last⟩ := List.append_inj' split rfl
        rw [List.head_eq_of_cons_eq last]
        exact Or.inr ⟨slash, offence⟩
    | append_singleton back last =>
        rw [← List.cons_append, ← List.append_assoc] at split
        obtain ⟨rfl, -⟩ := List.append_inj' split rfl
        exact Or.inl ⟨front, c', back, rfl, slash, offence⟩
  · rintro (⟨front, c', back, rfl, slash, offence⟩ | ⟨slash, offence⟩)
    · exact ⟨front, c', back ++ [c], by simp, slash, offence⟩
    · exact ⟨path, c, [], rfl, slash, offence⟩

/-- A path which the URI states read to its end without leaving `sw_after_slash_in_uri` and
`sw_check_uri`. -/
structure WatchedPath (path : List UInt8) : Prop where
  slash : [chr '/'] <+: path
  percent : chr '%' ∉ path
  hash : chr '#' ∉ path
  question : chr '?' ∉ path
  run : ¬ SlashRun path

/-- The byte `c` after `path` takes the URI states to `sw_uri` without a '?'. -/
def Offence (path : List UInt8) (c : UInt8) : Prop :=
  c = chr '%' ∨ c = chr '#' ∨ AfterSlash path ∧ (c = chr '/' ∨ c = chr '.')

namespace WatchedPath

variable {path : List UInt8}

theorem root : WatchedPath [chr '/'] where
  slash := List.prefix_refl _
  percent := by decide
  hash := by decide
  question := by decide
  run := by
    rintro ⟨front, c, back, split, ⟨before, count, rfl⟩, -⟩
    have length := congrArg List.length split
    simp only [List.length_append, List.length_cons, List.length_nil] at length
    omega

theorem length_pos (watched : WatchedPath path) : 0 < path.length :=
  List.length_pos_iff.mpr fun empty => by simpa [empty] using watched.slash

theorem concat (watched : WatchedPath path) {c : UInt8} (question : c ≠ chr '?')
    (harmless : ¬ Offence path c) : WatchedPath (path ++ [c]) := by
  simp only [Offence, not_or] at harmless
  obtain ⟨percent, hash, run⟩ := harmless
  refine ⟨watched.slash.trans (List.prefix_append _ _), ?_, ?_, ?_, ?_⟩
  · rw [List.mem_append, List.mem_singleton, not_or]
    exact ⟨watched.percent, Ne.symm percent⟩
  · rw [List.mem_append, List.mem_singleton, not_or]
    exact ⟨watched.hash, Ne.symm hash⟩
  · rw [List.mem_append, List.mem_singleton, not_or]
    exact ⟨watched.question, question.symm⟩
  · rw [slashRun_concat, not_or]
    exact ⟨watched.run, run⟩

/-- An offence makes the path one that is not watched. -/
theorem not_offence {c : UInt8} (rest : List UInt8) (offence : Offence path c) :
    chr '%' ∈ path ++ c :: rest ∨ chr '#' ∈ path ++ c :: rest ∨ SlashRun (path ++ c :: rest) := by
  rcases offence with rfl | rfl | ⟨slash, offence⟩
  · exact Or.inl (by simp)
  · exact Or.inr (Or.inl (by simp))
  · exact Or.inr (Or.inr ⟨path, c, rest, rfl, slash, offence⟩)

end WatchedPath

end Http
end OstrichServer
