import OstrichServer.Http.Accepted
import OstrichServer.Http.RequestHandler
import Mathlib.Data.List.TakeWhile

/-!
# `os_http_validate_host`

The function scans a host once and keeps the state of the scan, the length of the name and the
position of the last '.'.  It cuts the port and one trailing '.' off the name exactly when no later
'.' of the host takes the place of that one.
-/

namespace OstrichServer
namespace Http

/-! ## The canonical host -/

/-- The name in a host: a literal through its ']', any other host up to its port. -/
def hostName (h : List UInt8) : List UInt8 :=
  if h.head? = some (chr '[') then
    if chr ']' ∈ h then h.takeWhile (· ≠ chr ']') ++ [chr ']'] else h
  else h.takeWhile (· ≠ chr ':')

/-- A name without one trailing '.'. -/
def trimDot (name : List UInt8) : List UInt8 :=
  if name.getLast? = some (chr '.') then name.dropLast else name

/-- A host without NUL, '/' and two '.' in a row. -/
structure CleanHost (h : List UInt8) : Prop where
  nul : 0 ∉ h
  slash : chr '/' ∉ h
  dots : ¬ [chr '.', chr '.'] <:+: h

instance (h : List UInt8) : Decidable (CleanHost h) :=
  decidable_of_iff (0 ∉ h ∧ chr '/' ∉ h ∧ ¬ [chr '.', chr '.'] <:+: h)
    ⟨fun ⟨nul, slash, dots⟩ => ⟨nul, slash, dots⟩,
      fun clean => ⟨clean.nul, clean.slash, clean.dots⟩⟩

/-- What a host is to become: its name in lower case without a trailing '.'. -/
def canonicalHost (h : List UInt8) : Option (List UInt8) :=
  if CleanHost h ∧ trimDot (hostName h) ≠ [] then some (osStrlow (trimDot (hostName h))) else none

/-! ## The scan -/

/-- `ch >= 'A' && ch <= 'Z'` -/
def isUpper (c : UInt8) : Prop := chr 'A' ≤ c ∧ c ≤ chr 'Z'

instance (c : UInt8) : Decidable (isUpper c) := inferInstanceAs (Decidable (_ ∧ _))

/-- `pos` is the position of the last '.', or `len` when there is none. -/
def DotAt (len : Nat) (front : List UInt8) (pos : UInt64) : Prop :=
  chr '.' ∉ front ∧ pos = UInt64.ofNat len ∨
    ∃ before after, front = before ++ chr '.' :: after ∧ chr '.' ∉ after ∧
      pos = UInt64.ofNat before.length

/-- What the state of the scan and `host_len` say about the bytes read. -/
def NameAt (len : Nat) (front : List UInt8) (state : HostState) (hostLen : UInt64) : Prop :=
  match state with
  | .swUsual => front.head? ≠ some (chr '[') ∧ chr ':' ∉ front ∧ hostLen = UInt64.ofNat len
  | .swLiteral => front.head? = some (chr '[') ∧ chr ']' ∉ front ∧ hostLen = UInt64.ofNat len
  | .swRest =>
      front ≠ [] ∧ ∃ name, (∀ more, hostName (front ++ more) = name) ∧
        hostLen = UInt64.ofNat name.length

/-- The variables after the bytes `front` of a host of length `len`. -/
structure Scanned (len : Nat) (alloc : Bool) (front : List UInt8) (scan : HostScan) : Prop where
  clean : CleanHost front
  dot : DotAt len front scan.dotPos
  name : NameAt len front scan.state scan.hostLen
  upper : scan.alloc = true ↔ alloc = true ∨ ∃ c ∈ front, isUpper c

section Step

variable {len : Nat} {alloc : Bool} {front : List UInt8} {scan : HostScan} {c : UInt8}

theorem cleanHost_concat (clean : CleanHost front) :
    CleanHost (front ++ [c]) ↔
      c ≠ 0 ∧ c ≠ chr '/' ∧ ¬ (front.getLast? = some (chr '.') ∧ c = chr '.') := by
  constructor
  · intro whole
    refine ⟨?_, ?_, ?_⟩
    · rintro rfl
      exact whole.nul (by simp)
    · rintro rfl
      exact whole.slash (by simp)
    · rintro ⟨last, rfl⟩
      exact whole.dots (pair_infix_concat.mpr (Or.inr ⟨last, rfl⟩))
  · rintro ⟨nul, slash, dots⟩
    refine ⟨?_, ?_, ?_⟩
    · rw [List.mem_append, List.mem_singleton, not_or]
      exact ⟨clean.nul, nul.symm⟩
    · rw [List.mem_append, List.mem_singleton, not_or]
      exact ⟨clean.slash, slash.symm⟩
    · rw [pair_infix_concat, not_or]
      exact ⟨clean.dots, fun pair => dots ⟨pair.1, pair.2.symm⟩⟩

/-- Positions are compared as numbers, also the one before the first byte. -/
theorem ofNat_eq_sub_one {m n : Nat} (first : m < 2 ^ 31) (second : n < 2 ^ 31) :
    UInt64.ofNat m = UInt64.ofNat n - 1 ↔ m + 1 = n := by
  rw [← UInt64.toNat_inj, UInt64.toNat_sub]
  simp only [UInt64.toNat_ofNat', UInt64.toNat_one]
  omega

/-- The last '.' is the last byte when its position is the one before the next byte. -/
theorem DotAt.eq_iff {pos : UInt64} (dot : DotAt len front pos) (inside : front.length ≤ len)
    (small : len < 2 ^ 31) :
    pos = UInt64.ofNat front.length - 1 ↔ front.getLast? = some (chr '.') := by
  rcases dot with ⟨none, rfl⟩ | ⟨before, after, rfl, none, rfl⟩
  · rw [ofNat_eq_sub_one small (by omega)]
    refine ⟨fun equal => by omega, fun last => ?_⟩
    exact (none (List.mem_of_getLast? last)).elim
  · rw [List.length_append, List.length_cons] at inside ⊢
    rw [ofNat_eq_sub_one (by omega) (by omega)]
    cases after using List.reverseRecOn with
    | nil => simp
    | append_singleton after last =>
        rw [List.mem_append, List.mem_singleton, not_or] at none
        rw [← List.cons_append, ← List.append_assoc, List.getLast?_concat, Option.some_inj,
          List.length_append, List.length_singleton]
        exact ⟨fun equal => by omega, fun same => (none.2 same.symm).elim⟩

theorem DotAt.later {pos : UInt64} (dot : DotAt len front pos) (other : c ≠ chr '.') :
    DotAt len (front ++ [c]) pos := by
  rcases dot with ⟨none, same⟩ | ⟨before, after, rfl, none, same⟩
  · refine Or.inl ⟨?_, same⟩
    rw [List.mem_append, List.mem_singleton, not_or]
    exact ⟨none, other.symm⟩
  · refine Or.inr ⟨before, after ++ [c], by simp, ?_, same⟩
    rw [List.mem_append, List.mem_singleton, not_or]
    exact ⟨none, other.symm⟩

theorem DotAt.dot (len : Nat) (front : List UInt8) :
    DotAt len (front ++ [chr '.']) (UInt64.ofNat front.length) :=
  Or.inr ⟨front, [], rfl, List.not_mem_nil, rfl⟩

theorem head?_concat (c : UInt8) :
    (front ++ [c]).head? = if front = [] then some c else front.head? := by
  cases front <;> simp

/-- A byte which is no bracket and no ':'. -/
theorem NameAt.later {state : HostState} {hostLen : UInt64} (name : NameAt len front state hostLen)
    (colon : c = chr ':' → state ≠ .swUsual) (bracket : c = chr '[' → front ≠ [])
    (closing : c = chr ']' → state ≠ .swLiteral) : NameAt len (front ++ [c]) state hostLen := by
  cases state with
  | swUsual =>
      obtain ⟨head, none, same⟩ := name
      refine ⟨?_, ?_, same⟩
      · rw [head?_concat]
        split
        · rename_i empty
          exact fun first => bracket (Option.some.inj first) empty
        · exact head
      · rw [List.mem_append, List.mem_singleton, not_or]
        exact ⟨none, fun same => colon same.symm rfl⟩
  | swLiteral =>
      obtain ⟨head, none, same⟩ := name
      refine ⟨?_, ?_, same⟩
      · rw [head?_concat, if_neg (by rintro rfl; cases head)]
        exact head
      · rw [List.mem_append, List.mem_singleton, not_or]
        exact ⟨none, fun same => closing same.symm rfl⟩
  | swRest =>
      obtain ⟨nonempty, name, fixed, same⟩ := name
      refine ⟨by simp, name, fun more => ?_, same⟩
      rw [List.append_assoc]
      exact fixed ([c] ++ more)

/-- The ':' before a port. -/
theorem NameAt.colon {hostLen : UInt64} (name : NameAt len front .swUsual hostLen) :
    NameAt len (front ++ [chr ':']) .swRest (UInt64.ofNat front.length) := by
  obtain ⟨head, none, -⟩ := name
  refine ⟨by simp, front, fun more => ?_, rfl⟩
  have first : (front ++ [chr ':'] ++ more).head? ≠ some (chr '[') := by
    cases front with
    | nil => simp
    | cons d front => simpa using head
  have all : ∀ d ∈ front, decide (d ≠ chr ':') = true := by
    intro d member
    rw [decide_eq_true_iff]
    rintro rfl
    exact none member
  rw [hostName, if_neg first, List.append_assoc, List.takeWhile_append_of_pos all]
  simp

/-- The ']' of a literal. -/
theorem NameAt.closing {hostLen : UInt64} (name : NameAt len front .swLiteral hostLen) :
    NameAt len (front ++ [chr ']']) .swRest (UInt64.ofNat (front.length + 1)) := by
  obtain ⟨head, none, -⟩ := name
  refine ⟨by simp, front ++ [chr ']'], fun more => ?_, by simp⟩
  have first : (front ++ [chr ']'] ++ more).head? = some (chr '[') := by
    cases front with
    | nil => cases head
    | cons d front => simpa using head
  have all : ∀ d ∈ front, decide (d ≠ chr ']') = true := by
    intro d member
    rw [decide_eq_true_iff]
    rintro rfl
    exact none member
  rw [hostName, if_pos first, if_pos (by simp), List.append_assoc,
    List.takeWhile_append_of_pos all]
  simp

/-- The '[' of a literal. -/
theorem NameAt.opening {state : HostState} {hostLen : UInt64}
    (name : NameAt len [] state hostLen) : NameAt len [chr '['] .swLiteral hostLen := by
  cases state with
  | swUsual => exact ⟨rfl, by decide, name.2.2⟩
  | swLiteral => exact absurd name.1 (by simp)
  | swRest => exact absurd rfl name.1

/-- At the end of the host its name is known. -/
theorem NameAt.hostLen_eq {state : HostState} {hostLen : UInt64}
    (name : NameAt front.length front state hostLen) :
    hostLen = UInt64.ofNat (hostName front).length := by
  cases state with
  | swUsual =>
      obtain ⟨head, none, same⟩ := name
      have all : ∀ d ∈ front, decide (d ≠ chr ':') = true := by
        intro d member
        rw [decide_eq_true_iff]
        rintro rfl
        exact none member
      rw [hostName, if_neg head, List.takeWhile_eq_self_iff.mpr all, same]
  | swLiteral =>
      obtain ⟨head, none, same⟩ := name
      rw [hostName, if_pos head, if_neg none, same]
  | swRest =>
      obtain ⟨-, name, fixed, same⟩ := name
      have whole := fixed []
      rw [List.append_nil] at whole
      rw [whole, same]

theorem upper_concat : (∃ d ∈ front ++ [c], isUpper d) ↔ (∃ d ∈ front, isUpper d) ∨ isUpper c := by
  simp only [List.mem_append, List.mem_singleton, or_and_right, exists_or, exists_eq_left]

/-- A byte which is no capital letter leaves `alloc` alone. -/
theorem upper_concat_of_not (upper : scan.alloc = true ↔ alloc = true ∨ ∃ d ∈ front, isUpper d)
    (not_upper : ¬ isUpper c) :
    scan.alloc = true ↔ alloc = true ∨ ∃ d ∈ front ++ [c], isUpper d := by
  rw [upper, upper_concat, or_iff_left not_upper]

/-- What one turn of the loop is to do. -/
def Advances (len : Nat) (alloc : Bool) (front : List UInt8) (scan : Option HostScan) : Prop :=
  (CleanHost front ∧ ∃ next, scan = some next ∧ Scanned len alloc front next) ∨
    ¬ CleanHost front ∧ scan = none

/-- A '.' of the host. -/
private theorem Scanned.dot_step (scanned : Scanned len alloc front scan)
    (inside : front.length < len) (small : len < 2 ^ 31) :
    Advances len alloc (front ++ [chr '.'])
      (hostScanStep scan (UInt64.ofNat front.length) (chr '.')) := by
  have last := scanned.dot.eq_iff inside.le small
  have clean_iff := cleanHost_concat (c := chr '.') scanned.clean
  simp only [hostScanStep, if_true]
  refine iteInduction (fun adjacent => ?_) fun apart => ?_
  · refine Or.inr ⟨fun clean => ?_, rfl⟩
    exact (clean_iff.mp clean).2.2 ⟨last.mp adjacent, rfl⟩
  · refine Or.inl
      ⟨clean_iff.mpr ⟨by decide, by decide, fun pair => apart (last.mpr pair.1)⟩, _, rfl,
      ?_⟩
    exact ⟨clean_iff.mpr ⟨by decide, by decide, fun pair => apart (last.mpr pair.1)⟩,
      .dot len front, scanned.name.later (absurd · (by decide)) (absurd · (by decide))
        (absurd · (by decide)),
      upper_concat_of_not scanned.upper (by decide)⟩

/-- A byte that can only change the name. -/
private theorem Scanned.name_step {next : HostScan} (scanned : Scanned len alloc front scan)
    (nul : c ≠ 0) (slash : c ≠ chr '/') (dot : c ≠ chr '.') (not_upper : ¬ isUpper c)
    (same_dot : next.dotPos = scan.dotPos) (same_alloc : next.alloc = scan.alloc)
    (name : NameAt len (front ++ [c]) next.state next.hostLen) :
    Advances len alloc (front ++ [c]) (some next) := by
  have clean := (cleanHost_concat scanned.clean).mpr ⟨nul, slash, fun pair => dot pair.2⟩
  refine Or.inl ⟨clean, next, rfl, clean, ?_, name, ?_⟩
  · rw [same_dot]
    exact scanned.dot.later dot
  · rw [same_alloc]
    exact upper_concat_of_not scanned.upper not_upper

/-- One turn of the loop. -/
theorem Scanned.step (scanned : Scanned len alloc front scan) (inside : front.length < len)
    (small : len < 2 ^ 31) (c : UInt8) :
    Advances len alloc (front ++ [c]) (hostScanStep scan (UInt64.ofNat front.length) c) := by
  by_cases dot : c = chr '.'
  · subst dot
    exact scanned.dot_step inside small
  · rw [hostScanStep, if_neg dot]
    refine iteInduction (fun colon => ?_) fun not_colon =>
      iteInduction (fun bracket => ?_) fun not_bracket =>
        iteInduction (fun closing => ?_) fun not_closing =>
          iteInduction (fun nul => ?_) fun not_nul =>
            iteInduction (fun slash => ?_) fun not_slash =>
              iteInduction (fun upper => ?_) fun not_upper => ?_
    · subst colon
      have name := scanned.name
      cases state : scan.state with
      | swUsual =>
          rw [state] at name
          exact scanned.name_step (by decide) (by decide) dot (by decide) rfl rfl name.colon
      | swLiteral | swRest =>
          refine scanned.name_step (by decide) (by decide) dot (by decide) rfl rfl ?_
          exact name.later (by simp [state]) (absurd · (by decide)) (absurd · (by decide))
    · subst bracket
      split
      · rename_i first
        have empty : front = [] := by
          have length := congrArg UInt64.toNat first
          rw [UInt64.toNat_ofNat', UInt64.toNat_zero, Nat.mod_eq_of_lt (by omega)] at length
          exact List.eq_nil_of_length_eq_zero length
        subst empty
        exact scanned.name_step (by decide) (by decide) dot (by decide) rfl rfl
          scanned.name.opening
      · rename_i later
        refine scanned.name_step (by decide) (by decide) dot (by decide) rfl rfl ?_
        exact scanned.name.later (absurd · (by decide)) (fun _ empty => later (by simp [empty]))
          (absurd · (by decide))
    · subst closing
      have name := scanned.name
      cases state : scan.state with
      | swLiteral =>
          rw [state] at name
          refine scanned.name_step (by decide) (by decide) dot (by decide) rfl rfl ?_
          have ends := name.closing
          rwa [UInt64.ofNat_add] at ends
      | swUsual | swRest =>
          refine scanned.name_step (by decide) (by decide) dot (by decide) rfl rfl ?_
          exact name.later (absurd · (by decide)) (absurd · (by decide)) (by simp [state])
    · refine Or.inr ⟨fun clean => ?_, rfl⟩
      exact ((cleanHost_concat scanned.clean).mp clean).1 nul
    · refine Or.inr ⟨fun clean => ?_, rfl⟩
      exact ((cleanHost_concat scanned.clean).mp clean).2.1 slash
    · have clean := (cleanHost_concat (c := c) scanned.clean).mpr
        ⟨not_nul, not_slash, fun pair => dot pair.2⟩
      refine Or.inl ⟨clean, _, rfl, clean, scanned.dot.later dot,
        scanned.name.later (fun same => (not_colon same).elim)
          (fun same => (not_bracket same).elim) (fun same => (not_closing same).elim), ?_⟩
      rw [upper_concat]
      exact iff_of_true rfl (Or.inr (Or.inr upper))
    · refine scanned.name_step not_nul not_slash dot not_upper rfl rfl ?_
      exact scanned.name.later (fun same => (not_colon same).elim)
        (fun same => (not_bracket same).elim) (fun same => (not_closing same).elim)

end Step

theorem hostScanLoop_concat (scan : HostScan) (i : UInt64) (front : List UInt8) (c : UInt8) :
    hostScanLoop scan i (front ++ [c]) =
      (hostScanLoop scan i front).bind
        fun scan => hostScanStep scan (i + UInt64.ofNat front.length) c := by
  induction front generalizing scan i with
  | nil =>
      simp only [List.nil_append, hostScanLoop, List.length_nil, Option.bind_some]
      rw [show UInt64.ofNat 0 = 0 from rfl, UInt64.add_zero]
      cases hostScanStep scan i c <;> rfl
  | cons d front induction =>
      simp only [List.cons_append, hostScanLoop]
      cases hostScanStep scan i d with
      | none => rfl
      | some next =>
          simp only [induction]
          rw [List.length_cons, Nat.add_comm, UInt64.ofNat_add, UInt64.add_assoc]
          rfl

/-- The loop over the first bytes of a host. -/
theorem hostScanLoop_spec {len : Nat} (alloc : Bool) (small : len < 2 ^ 31) (front : List UInt8)
    (inside : front.length ≤ len) :
    Advances len alloc front
      (hostScanLoop ⟨.swUsual, UInt64.ofNat len, UInt64.ofNat len, alloc⟩ 0 front) := by
  induction front using List.reverseRecOn with
  | nil =>
      have clean : CleanHost [] := by decide
      refine Or.inl
        ⟨clean, _, rfl, clean, Or.inl ⟨List.not_mem_nil, rfl⟩, ⟨by simp, by simp, rfl⟩, ?_⟩
      simp
  | append_singleton front c induction =>
      rw [List.length_append, List.length_singleton] at inside
      rw [hostScanLoop_concat, UInt64.zero_add]
      rcases induction (by omega) with ⟨-, scan, same, scanned⟩ | ⟨dirty, same⟩
      · rw [same, Option.bind_some]
        exact scanned.step (by omega) small c
      · rw [same, Option.bind_none]
        refine Or.inr ⟨fun clean => dirty ⟨?_, ?_, ?_⟩, rfl⟩
        · exact fun member => clean.nul (List.mem_append_left _ member)
        · exact fun member => clean.slash (List.mem_append_left _ member)
        · exact fun pair => clean.dots (pair.trans (List.prefix_append _ _).isInfix)

/-! ## The result -/

theorem hostName_begins (h : List UInt8) : hostName h <+: h := by
  unfold hostName
  split
  · split
    · rename_i _ member
      have parts : h.takeWhile (· ≠ chr ']') ++ h.dropWhile (· ≠ chr ']') = h :=
        List.takeWhile_append_dropWhile
      cases back : h.dropWhile (· ≠ chr ']') with
      | nil =>
          have all := List.dropWhile_eq_nil_iff.mp back _ member
          simp at all
      | cons c rest =>
          have closing : c = chr ']' := by
            have stop := List.head?_dropWhile_not (· ≠ chr ']') h
            rw [back] at stop
            have equal : decide (c ≠ chr ']') = false := stop
            exact not_not.mp (of_decide_eq_false equal)
          rw [back, closing] at parts
          exact ⟨rest, by rw [List.append_assoc]; exact parts⟩
    · exact List.prefix_refl h
  · exact List.takeWhile_prefix _

/-- A host is its name and what follows it. -/
theorem hostName_append (h : List UInt8) : hostName h ++ h.drop (hostName h).length = h :=
  List.prefix_iff_eq_append.mp (hostName_begins h)

/-- The last '.' is the last byte of the name when none follows. -/
theorem DotAt.name_iff {name rest : List UInt8} {pos : UInt64}
    (dot : DotAt (name ++ rest).length (name ++ rest) pos)
    (small : (name ++ rest).length < 2 ^ 31) :
    pos = UInt64.ofNat name.length - 1 ↔ name.getLast? = some (chr '.') ∧ chr '.' ∉ rest := by
  rw [List.length_append] at small dot
  rcases dot with ⟨none, rfl⟩ | ⟨before, after, split, none, rfl⟩
  · rw [ofNat_eq_sub_one small (by omega)]
    refine ⟨fun equal => by omega, fun last => ?_⟩
    exact (none (List.mem_append_left _ (List.mem_of_getLast? last.1))).elim
  · have length := congrArg List.length split
    rw [List.length_append, List.length_append, List.length_cons] at length
    rw [ofNat_eq_sub_one (by omega) (by omega)]
    constructor
    · intro equal
      rw [List.append_cons] at split
      obtain ⟨rfl, rfl⟩ := List.append_inj split (by simp; omega)
      exact ⟨List.getLast?_concat, none⟩
    · rintro ⟨last, absent⟩
      obtain ⟨front, rfl⟩ := List.getLast?_eq_some_iff.mp last
      rw [← List.append_cons, List.append_eq_append_iff] at split
      rcases split with ⟨middle, rfl, same⟩ | ⟨middle, rfl, same⟩
      · cases middle with
        | nil => simp
        | cons c middle =>
            rw [List.cons_append] at same
            refine (absent ?_).elim
            rw [List.tail_eq_of_cons_eq same]
            simp
      · cases middle with
        | nil => simp
        | cons c middle =>
            rw [List.cons_append] at same
            refine (none ?_).elim
            rw [List.tail_eq_of_cons_eq same]
            simp

/-- The name that the function returns before it is put into lower case. -/
def returnedName (h : List UInt8) : List UInt8 :=
  if (hostName h).getLast? = some (chr '.') ∧ chr '.' ∉ h.drop (hostName h).length then
    (hostName h).dropLast
  else hostName h

theorem osTolower_of_not_upper {c : UInt8} (not_upper : ¬ isUpper c) : osTolower c = c :=
  if_neg not_upper

theorem osStrlow_of_not_upper {src : List UInt8} (none : ∀ c ∈ src, ¬ isUpper c) :
    osStrlow src = src :=
  (List.map_congr_left fun c member => osTolower_of_not_upper (none c member)).trans
    (List.map_id src)

/-- `os_http_validate_host` in closed form. -/
theorem osHttpValidateHost_eq (h : List UInt8) (alloc : Bool) (small : h.length < 2 ^ 31) :
    osHttpValidateHost h alloc =
      if CleanHost h ∧ returnedName h ≠ [] then some (osStrlow (returnedName h)) else none := by
  rw [osHttpValidateHost]
  rcases hostScanLoop_spec alloc small h le_rfl with ⟨clean, scan, same, scanned⟩ | ⟨dirty, same⟩
  · simp only [same]
    have parts := hostName_append h
    have dot := scanned.dot
    have count := congrArg List.length parts
    rw [List.length_append] at count
    rw [← parts] at dot
    have trims := dot.name_iff (by rwa [parts])
    rw [scanned.name.hostLen_eq]
    -- the length of the name after the '.' is dropped
    have length : (if scan.dotPos = UInt64.ofNat (hostName h).length - 1 then
        UInt64.ofNat (hostName h).length - 1 else UInt64.ofNat (hostName h).length) =
          UInt64.ofNat (returnedName h).length := by
      unfold returnedName
      simp only [trims]
      split
      · rename_i trimmed
        rw [List.length_dropLast]
        have more : 0 < (hostName h).length :=
          List.length_pos_iff.mpr fun empty => by simp [empty] at trimmed
        exact ((ofNat_eq_sub_one (by omega) (by omega)).mpr (by omega)).symm
      · rfl
    have front : h.take (returnedName h).length = returnedName h := by
      have inside : returnedName h <+: h := by
        unfold returnedName
        split
        · exact (List.dropLast_prefix _).trans (hostName_begins h)
        · exact hostName_begins h
      exact (List.prefix_iff_eq_take.mp inside).symm
    have short : (returnedName h).length ≤ h.length := by
      rw [← front]
      exact List.length_take_le' _ _
    rw [length]
    have zero : UInt64.ofNat (returnedName h).length = 0 ↔ returnedName h = [] := by
      rw [← UInt64.toNat_inj, UInt64.toNat_ofNat', UInt64.toNat_zero, Nat.mod_eq_of_lt (by omega),
        List.length_eq_zero_iff]
    simp only [zero, clean, true_and, UInt64.toNat_ofNat', Nat.mod_eq_of_lt
      (show (returnedName h).length < 2 ^ 64 by omega), front]
    by_cases empty : returnedName h = []
    · rw [if_pos empty, if_neg (not_not.mpr empty)]
    · rw [if_neg empty, if_pos empty]
      refine congrArg some ?_
      split
      · rfl
      · rename_i quiet
        refine (osStrlow_of_not_upper fun c member upper => quiet ?_).symm
        refine scanned.upper.mpr (Or.inr ⟨c, ?_, upper⟩)
        rw [← front] at member
        exact List.mem_of_mem_take member
  · simp only [same]
    rw [if_neg fun good => dirty good.1]

/-! ## Canonical results -/

private theorem osTolower_eq_iff : ∀ c,
    (osTolower c = 0 ↔ c = 0) ∧ (osTolower c = chr '/' ↔ c = chr '/') ∧
      (osTolower c = chr '.' ↔ c = chr '.') ∧ (osTolower c = chr ':' ↔ c = chr ':') ∧
      (osTolower c = chr '[' ↔ c = chr '[') ∧ (osTolower c = chr ']' ↔ c = chr ']') ∧
      ¬ isUpper (osTolower c) := by
  decide +kernel

theorem osStrlow_not_upper (src : List UInt8) : ∀ c ∈ osStrlow src, ¬ isUpper c := by
  intro c member
  obtain ⟨d, -, rfl⟩ := List.mem_map.mp member
  exact (osTolower_eq_iff d).2.2.2.2.2.2

theorem osStrlow_getLast? (src : List UInt8) :
    (osStrlow src).getLast? = some (chr '.') ↔ src.getLast? = some (chr '.') := by
  rw [osStrlow, List.getLast?_map]
  cases src.getLast? with
  | none => simp
  | some c => simpa using (osTolower_eq_iff c).2.2.1

/-- Lower case does not change which host is clean. -/
theorem CleanHost.osStrlow {src : List UInt8} (clean : CleanHost src) :
    CleanHost (osStrlow src) := by
  refine ⟨fun member => ?_, fun member => ?_, ?_⟩
  · obtain ⟨c, inside, same⟩ := List.mem_map.mp member
    rw [(osTolower_eq_iff c).1.mp same] at inside
    exact clean.nul inside
  · obtain ⟨c, inside, same⟩ := List.mem_map.mp member
    rw [(osTolower_eq_iff c).2.1.mp same] at inside
    exact clean.slash inside
  · rintro ⟨front, back, split⟩
    obtain ⟨left, right, rfl, same, -⟩ := List.map_eq_append_iff.mp split.symm
    obtain ⟨front', pair, rfl, -, dots⟩ := List.map_eq_append_iff.mp same
    obtain ⟨c, rest, rfl, first, others⟩ := List.map_eq_cons_iff.mp dots
    obtain ⟨d, rest, rfl, second, finish⟩ := List.map_eq_cons_iff.mp others
    obtain rfl := List.map_eq_nil_iff.mp finish
    rw [(osTolower_eq_iff c).2.2.1.mp first, (osTolower_eq_iff d).2.2.1.mp second] at clean
    exact clean.dots ⟨front', right, rfl⟩

theorem CleanHost.of_prefix {h front : List UInt8} (clean : CleanHost h) (begins : front <+: h) :
    CleanHost front :=
  ⟨fun member => clean.nul (begins.subset member), fun member => clean.slash (begins.subset member),
    fun pair => clean.dots (pair.trans begins.isInfix)⟩

theorem takeWhile_osStrlow {stop : UInt8} (src : List UInt8)
    (same : ∀ c, osTolower c = stop ↔ c = stop) :
    (osStrlow src).takeWhile (· ≠ stop) = osStrlow (src.takeWhile (· ≠ stop)) := by
  rw [osStrlow, List.takeWhile_map, osStrlow]
  congr 2
  funext c
  simp [same c]

/-- Lower case does not change where the name ends. -/
theorem hostName_osStrlow (src : List UInt8) :
    hostName (osStrlow src) = osStrlow (hostName src) := by
  have head : (osStrlow src).head? = some (chr '[') ↔ src.head? = some (chr '[') := by
    rw [osStrlow, List.head?_map]
    cases src.head? with
    | none => simp
    | some c => simpa using (osTolower_eq_iff c).2.2.2.2.1
  have closing : chr ']' ∈ osStrlow src ↔ chr ']' ∈ src := by
    rw [osStrlow, List.mem_map]
    constructor
    · rintro ⟨c, inside, same⟩
      rwa [(osTolower_eq_iff c).2.2.2.2.2.1.mp same] at inside
    · exact fun inside => ⟨_, inside, by decide⟩
  unfold hostName
  simp only [head, closing]
  split
  · split
    · rw [takeWhile_osStrlow src fun c => (osTolower_eq_iff c).2.2.2.2.2.1, osStrlow, osStrlow,
        List.map_append]
      rfl
    · rfl
  · exact takeWhile_osStrlow src fun c => (osTolower_eq_iff c).2.2.2.1

theorem trimDot_begins (name : List UInt8) : trimDot name <+: name := by
  unfold trimDot
  split
  · exact List.dropLast_prefix name
  · exact List.prefix_refl name

/-- A clean name ends in one '.' at most. -/
theorem trimDot_getLast? {name : List UInt8} (clean : CleanHost name) :
    (trimDot name).getLast? ≠ some (chr '.') := by
  unfold trimDot
  split
  · rename_i last
    obtain ⟨front, rfl⟩ := List.getLast?_eq_some_iff.mp last
    rw [List.dropLast_concat]
    intro again
    exact clean.dots (pair_infix_concat.mpr (Or.inr ⟨again, rfl⟩))
  · assumption

private theorem head?_of_prefix {h front : List UInt8} (begins : front <+: h)
    (nonempty : front ≠ []) :
    front.head? = h.head? := by
  obtain ⟨rest, rfl⟩ := begins
  rw [List.head?_append_of_ne_nil _ nonempty]

/-- The trimmed name of a host is a host without a port. -/
theorem hostName_trimDot {h : List UInt8} (nonempty : trimDot (hostName h) ≠ []) :
    hostName (trimDot (hostName h)) = trimDot (hostName h) := by
  have begins : trimDot (hostName h) <+: h := (trimDot_begins _).trans (hostName_begins h)
  have head := head?_of_prefix begins nonempty
  by_cases literal : h.head? = some (chr '[')
  · by_cases closing : chr ']' ∈ h
    · have name : hostName h = h.takeWhile (· ≠ chr ']') ++ [chr ']'] := by
        rw [hostName, if_pos literal, if_pos closing]
      have kept : trimDot (hostName h) = hostName h := by
        rw [trimDot, if_neg]
        rw [name, List.getLast?_concat]
        decide
      rw [kept] at head ⊢
      rw [literal] at head
      have inside : chr ']' ∈ hostName h := by
        rw [name]
        simp
      conv_lhs => rw [hostName, if_pos head, if_pos inside]
      rw [name, List.takeWhile_append_of_pos (fun c member =>
          List.mem_takeWhile_imp (p := fun c => decide (c ≠ chr ']')) member),
        List.takeWhile_cons_of_neg (by simp), List.append_nil]
    · have absent : chr ']' ∉ trimDot (hostName h) := fun member =>
        closing (begins.subset member)
      rw [hostName, if_pos (head.trans literal), if_neg absent]
  · have all : ∀ c ∈ trimDot (hostName h), decide (c ≠ chr ':') = true := by
      intro c member
      have inside := (trimDot_begins _).subset member
      rw [hostName, if_neg literal] at inside
      exact List.mem_takeWhile_imp (p := fun c => decide (c ≠ chr ':')) inside
    rw [hostName, if_neg (head ▸ literal), List.takeWhile_eq_self_iff.mpr all]

/-- The function turns a host into its canonical form, and a canonical form into itself. -/
structure Canonicalised (h : List UInt8) (alloc : Bool) : Prop where
  verdict : osHttpValidateHost h alloc = canonicalHost h
  accepted : ∀ host, osHttpValidateHost h alloc = some host →
    (∀ c ∈ host, ¬ isUpper c) ∧ host.getLast? ≠ some (chr '.') ∧
      ∀ alloc, osHttpValidateHost host alloc = some host

/-- A '.' after the name hides the '.' that ends the name. -/
def LateDot (h : List UInt8) : Prop :=
  CleanHost h ∧ (hostName h).getLast? = some (chr '.') ∧ chr '.' ∈ h.drop (hostName h).length

theorem LateDot.not_canonicalHost {h : List UInt8} (late : LateDot h) (alloc : Bool)
    (small : h.length < 2 ^ 31) : osHttpValidateHost h alloc ≠ canonicalHost h := by
  obtain ⟨clean, last, dot⟩ := late
  have returned : returnedName h = hostName h := if_neg fun both => both.2 dot
  have nonempty : hostName h ≠ [] := fun empty => by simp [empty] at last
  rw [osHttpValidateHost_eq h alloc small, returned, if_pos ⟨clean, nonempty⟩, canonicalHost]
  split
  · intro same
    have lengths := congrArg List.length (Option.some.inj same)
    have more := List.length_pos_iff.mpr nonempty
    rw [osStrlow, osStrlow, List.length_map, List.length_map, trimDot, if_pos last,
      List.length_dropLast] at lengths
    omega
  · exact Option.some_ne_none _

/-- `os_http_validate_host` turns a host into its canonical form exactly when no '.' after the name
hides a '.' at the end of the name. -/
theorem host_canonicalised_iff (h : List UInt8) (alloc : Bool) (small : h.length < 2 ^ 31) :
    Canonicalised h alloc ↔ ¬ LateDot h := by
  constructor
  · exact fun canonical late => late.not_canonicalHost alloc small canonical.verdict
  · intro early
    have verdict : osHttpValidateHost h alloc = canonicalHost h := by
      rw [osHttpValidateHost_eq h alloc small, canonicalHost]
      by_cases clean : CleanHost h
      · have same : returnedName h = trimDot (hostName h) := by
          unfold returnedName trimDot
          refine if_congr (and_iff_left_of_imp fun last dot => early ⟨clean, last, dot⟩) rfl rfl
        rw [same]
      · rw [if_neg fun good => clean good.1, if_neg fun good => clean good.1]
    refine ⟨verdict, fun host accepted => ?_⟩
    rw [verdict, canonicalHost] at accepted
    split at accepted
    · rename_i good
      obtain ⟨clean, nonempty⟩ := good
      obtain rfl := Option.some.inj accepted
      have begins : trimDot (hostName h) <+: h := (trimDot_begins _).trans (hostName_begins h)
      have last : (osStrlow (trimDot (hostName h))).getLast? ≠ some (chr '.') := fun dot =>
        trimDot_getLast? (clean.of_prefix (hostName_begins h)) ((osStrlow_getLast? _).mp dot)
      refine ⟨osStrlow_not_upper _, last, fun alloc => ?_⟩
      have short : (osStrlow (trimDot (hostName h))).length < 2 ^ 31 := by
        rw [osStrlow, List.length_map]
        exact begins.length_le.trans_lt small
      have name : hostName (osStrlow (trimDot (hostName h))) = osStrlow (trimDot (hostName h)) := by
        rw [hostName_osStrlow, hostName_trimDot nonempty]
      have returned : returnedName (osStrlow (trimDot (hostName h))) =
          osStrlow (trimDot (hostName h)) := by
        rw [returnedName, name, if_neg fun both => last both.1]
      rw [osHttpValidateHost_eq _ alloc short, returned,
        if_pos ⟨(clean.of_prefix begins).osStrlow, by simpa [osStrlow] using nonempty⟩,
        osStrlow_of_not_upper (osStrlow_not_upper _)]
    · cases accepted

/-- `Example.COM.:80` -/
def portedHost : List UInt8 :=
  [chr 'E', chr 'x', chr 'a', chr 'm', chr 'p', chr 'l', chr 'e', chr '.', chr 'C', chr 'O',
    chr 'M', chr '.', chr ':', chr '8', chr '0']

theorem host_canonicalised_iff_portedHost : Canonicalised portedHost false :=
  (host_canonicalised_iff portedHost false (by decide)).mpr fun late => by
    have dot := late.2.2
    revert dot
    decide +kernel

/-- `a.:8.0` -/
def lateDotHost : List UInt8 := [chr 'a', chr '.', chr ':', chr '8', chr '.', chr '0']

theorem host_not_canonicalised :
    ¬ ∀ (h : List UInt8) (alloc : Bool), h.length < 2 ^ 31 → Canonicalised h alloc := by
  intro always
  have accepted : osHttpValidateHost lateDotHost false = some [chr 'a', chr '.'] := by
    decide +kernel
  exact ((always lateDotHost false (by decide)).accepted _ accepted).2.1 (by decide)

end Http
end OstrichServer
