import Mathlib.Data.List.TakeWhile
import Mathlib.Tactic.ByContra
import TreePattern.Proofs.Meaning
/-!
Canonical versions: groups of digits with single dots between them. The policy of that name looks at
the token of a text, the stretch of digits, dots and underscores from the first digit on, and keeps
the groups of digits in it. It leaves a canonical version as it is, and nothing else, so that to
clean a value twice is to clean it once.
-/
namespace TreePattern

namespace VersionPolicy

/-- A dot or an underscore, between two groups of digits. -/
def isMark (c : Char) : Bool := c = '.' || c = '_'

/-- The stretch of a text from its first digit on that holds digits and marks alone and goes on as
long as they do. -/
structure Token (before token after : List Char) : Prop where
  digitless : ∀ c ∈ before, c.isDigit = false
  head : ∃ d, token.head? = some d ∧ d.isDigit
  inside : ∀ c ∈ token, c.isDigit ∨ isMark c
  stops : ∀ c, after.head? = some c → c.isDigit = false ∧ isMark c = false

/-- What stands between the marks of a token, where anything does. -/
def groups (token : List Char) : List (List Char) := (token.splitOnP isMark).filter (· ≠ [])

/-- One group of digits or more, with single dots between them. -/
def Dotted (version : List Char) : Prop :=
  ∃ groups : List (List Char), groups ≠ [] ∧
    (∀ group ∈ groups, group ≠ [] ∧ ∀ c ∈ group, c.isDigit) ∧ version = ['.'].intercalate groups

theorem isMark_iff {c : Char} : isMark c ↔ c = '.' ∨ c = '_' := by simp [isMark]

theorem isMark_of_isDigit {c : Char} (h : c.isDigit) : isMark c = false := by
  rw [Bool.eq_false_iff, Ne, isMark_iff]
  rintro (rfl | rfl) <;> exact absurd h (by decide)

theorem isDigit_of_isMark {c : Char} (h : isMark c) : c.isDigit = false := by
  by_contra digit
  rw [isMark_of_isDigit (by simpa using digit)] at h
  cases h

/-! ### The scan -/

section Scan

variable {c : Char} {cs : List Char}

theorem scan_digit (digit : c.isDigit) (afterDot : Bool) :
    scan afterDot (c :: cs) = c :: scan false cs := by
  rw [scan, if_pos digit]

/-- Of a run of marks the first one becomes a dot. -/
theorem scan_mark (mark : isMark c) (afterDot : Bool) :
    scan afterDot (c :: cs) = if afterDot then scan true cs else '.' :: scan true cs := by
  rw [scan, if_neg (by simp [isDigit_of_isMark mark]), if_pos (isMark_iff.1 mark)]

theorem scan_other (digit : c.isDigit = false) (mark : isMark c = false) (afterDot : Bool) :
    scan afterDot (c :: cs) = [] := by
  rw [scan, if_neg (by simp [digit]), if_neg (by simp [← isMark_iff, mark])]

/-- The scan does not look behind the token. -/
theorem scan_append {after : List Char} (inside : ∀ c ∈ cs, c.isDigit ∨ isMark c)
    (stops : ∀ c, after.head? = some c → c.isDigit = false ∧ isMark c = false) (afterDot : Bool) :
    scan afterDot (cs ++ after) = scan afterDot cs := by
  induction cs generalizing afterDot with
  | nil =>
    cases after with
    | nil => rfl
    | cons d after =>
      obtain ⟨digit, mark⟩ := stops d rfl
      rw [List.nil_append, scan_other digit mark]
      rfl
  | cons c cs ih =>
    obtain ⟨here, behind⟩ := List.forall_mem_cons.1 inside
    rw [List.cons_append]
    rcases here with digit | mark
    · rw [scan_digit digit, scan_digit digit, ih behind]
    · rw [scan_mark mark, scan_mark mark, ih behind]

theorem dropTrailingDots_dot (cs : List Char) : dropTrailingDots ('.' :: cs) =
    if dropTrailingDots cs = [] then [] else '.' :: dropTrailingDots cs := by
  rw [dropTrailingDots, dropTrailingDots, List.reverse_cons, List.dropWhile_append]
  cases cs.reverse.dropWhile (· = '.') <;> simp

theorem dropTrailingDots_cons (other : c ≠ '.') (cs : List Char) :
    dropTrailingDots (c :: cs) = c :: dropTrailingDots cs := by
  rw [dropTrailingDots, dropTrailingDots, List.reverse_cons, List.dropWhile_append]
  cases cs.reverse.dropWhile (· = '.') <;> simp [other]

end Scan

/-! ### The groups -/

theorem intercalate_dot_cons (group : List Char) (groups : List (List Char)) :
    ['.'].intercalate (group :: groups) = group ++ groups.flatMap ('.' :: ·) := by
  induction groups generalizing group with
  | nil => simp
  | cons next groups ih => rw [List.intercalate_cons_cons, ih, List.flatMap_cons]; simp

theorem intercalate_dot_eq_nil_iff {groups : List (List Char)} (full : ∀ g ∈ groups, g ≠ []) :
    ['.'].intercalate groups = [] ↔ groups = [] := by
  cases groups with
  | nil => simp
  | cons group groups => simp [intercalate_dot_cons, full group]

theorem ne_nil_of_mem_groups {token group : List Char} (h : group ∈ groups token) : group ≠ [] := by
  simpa using (List.mem_filter.1 h).2

theorem groups_mark {c : Char} (mark : isMark c) (cs : List Char) :
    groups (c :: cs) = groups cs := by
  rw [groups, List.splitOnP_cons_eq_if_modifyHead, if_pos mark]
  rfl

/-- The text between marks is part of the text and holds no mark. -/
theorem of_mem_splitOnP {cs piece : List Char} {c : Char} (h : piece ∈ cs.splitOnP isMark)
    (mem : c ∈ piece) : c ∈ cs ∧ isMark c = false := by
  induction cs generalizing piece with
  | nil => simp_all
  | cons d cs ih =>
    rw [List.splitOnP_cons_eq_if_modifyHead] at h
    split at h
    · rcases List.mem_cons.1 h with rfl | later
      · cases mem
      · exact (ih later mem).imp_left (List.mem_cons_of_mem d)
    · next unmarked =>
      obtain ⟨first, rest, split⟩ := List.exists_cons_of_ne_nil (List.splitOnP_ne_nil isMark cs)
      rw [split, List.modifyHead_cons] at h
      rcases List.mem_cons.1 h with rfl | later
      · rcases List.mem_cons.1 mem with rfl | inner
        · exact ⟨List.mem_cons_self, by simpa using unmarked⟩
        · exact (ih (split ▸ List.mem_cons_self) inner).imp_left (List.mem_cons_of_mem d)
      · exact (ih (split ▸ List.mem_cons_of_mem _ later) mem).imp_left (List.mem_cons_of_mem d)

/-- Behind a dot the scan finds the groups of what follows. Behind a digit it first finds the rest of
the group to which the digit belongs, which may be empty. -/
theorem dropTrailingDots_scan {cs : List Char} (inside : ∀ c ∈ cs, c.isDigit ∨ isMark c) :
    ∃ first rest, cs.splitOnP isMark = first :: rest ∧
      dropTrailingDots (scan true cs) = ['.'].intercalate (groups cs) ∧
      dropTrailingDots (scan false cs) = first ++ (rest.filter (· ≠ [])).flatMap ('.' :: ·) := by
  induction cs with
  | nil => exact ⟨[], [], rfl, rfl, rfl⟩
  | cons c cs ih =>
    obtain ⟨here, behind⟩ := List.forall_mem_cons.1 inside
    obtain ⟨first, rest, split, dotted, joined⟩ := ih behind
    rcases here with digit | mark
    · have other : c ≠ '.' := by
        rintro rfl
        cases digit
      have grown : (c :: cs).splitOnP isMark = (c :: first) :: rest := by
        simp [List.splitOnP_cons_eq_if_modifyHead, isMark_of_isDigit digit, split]
      have found : groups (c :: cs) = (c :: first) :: rest.filter (· ≠ []) := by
        simp [groups, grown]
      refine ⟨c :: first, rest, grown, ?_, ?_⟩
      · rw [scan_digit digit, dropTrailingDots_cons other, joined, found, intercalate_dot_cons]
        rfl
      · rw [scan_digit digit, dropTrailingDots_cons other, joined]
        rfl
    · refine ⟨[], cs.splitOnP isMark, ?_, ?_, ?_⟩
      · rw [List.splitOnP_cons_eq_if_modifyHead, if_pos mark]
      · rw [scan_mark mark, if_pos rfl, dotted, groups_mark mark]
      · rw [scan_mark mark, if_neg (by decide), dropTrailingDots_dot, dotted, List.nil_append]
        change _ = (groups cs).flatMap ('.' :: ·)
        have full : ∀ group ∈ groups cs, group ≠ [] := fun _ => ne_nil_of_mem_groups
        cases found : groups cs with
        | nil => rfl
        | cons group later =>
          rw [if_neg (mt (intercalate_dot_eq_nil_iff (found ▸ full)).1 (by simp)),
            intercalate_dot_cons]
          rfl

section Token

variable {before token after : List Char}

theorem Token.exists_cons (isToken : Token before token after) :
    ∃ d ds, token = d :: ds ∧ d.isDigit := by
  obtain ⟨d, head, digit⟩ := isToken.head
  obtain ⟨ds, rfl⟩ := List.head?_eq_some_iff.1 head
  exact ⟨d, ds, rfl, digit⟩

/-- The policy keeps the groups of the token. -/
theorem canonical_of_token {raw : String} (cut : raw.toList = before ++ token ++ after)
    (isToken : Token before token after) :
    canonical raw = some (String.ofList (['.'].intercalate (groups token))) := by
  obtain ⟨d, ds, rfl, digit⟩ := isToken.exists_cons
  have start : raw.toList.dropWhile (fun c => !c.isDigit) = d :: (ds ++ after) := by
    rw [cut, List.append_assoc, List.dropWhile_append_of_pos (by simpa using isToken.digitless),
      List.cons_append, List.dropWhile_cons_of_neg (by simp [digit])]
  obtain ⟨first, rest, split, -, joined⟩ := dropTrailingDots_scan isToken.inside
  -- The token starts with a digit, so its first group is not empty.
  obtain ⟨first', grown⟩ : ∃ first', first = d :: first' := by
    obtain ⟨first', rest', inner⟩ :=
      List.exists_cons_of_ne_nil (List.splitOnP_ne_nil isMark ds)
    rw [List.splitOnP_cons_eq_if_modifyHead, isMark_of_isDigit digit, inner] at split
    exact ⟨first', (List.cons.inj split).1.symm⟩
  have found : groups (d :: ds) = first :: rest.filter (· ≠ []) := by
    simp [groups, split, grown]
  rw [canonical, start]
  change some (String.ofList (dropTrailingDots (scan false ((d :: ds) ++ after)))) = _
  rw [scan_append isToken.inside isToken.stops, joined, found, intercalate_dot_cons]

/-- A text with a digit has a token. -/
theorem exists_token {cs : List Char} (digit : ∃ c ∈ cs, c.isDigit) :
    ∃ before token after, cs = before ++ token ++ after ∧ Token before token after := by
  obtain ⟨d, ds, start⟩ : ∃ d ds, cs.dropWhile (fun c => !c.isDigit) = d :: ds := by
    apply List.exists_cons_of_ne_nil
    simpa [List.dropWhile_eq_nil_iff] using digit
  have first : d.isDigit := by
    have := List.head_dropWhile_not (fun c : Char => !c.isDigit) (l := cs) (by simp [start])
    simpa [start] using this
  let inner : Char → Bool := fun c => c.isDigit || isMark c
  refine ⟨cs.takeWhile (fun c => !c.isDigit), (d :: ds).takeWhile inner, (d :: ds).dropWhile inner,
    ?_, ?_, ?_, ?_, ?_⟩
  · rw [List.append_assoc, List.takeWhile_append_dropWhile, ← start,
      List.takeWhile_append_dropWhile]
  · intro c mem
    simpa using List.mem_takeWhile_imp mem
  · exact ⟨d, by rw [List.takeWhile_cons_of_pos (by simp [inner, first])]; rfl, first⟩
  · intro c mem
    simpa [inner] using List.mem_takeWhile_imp mem
  · intro c head
    have := List.head?_dropWhile_not inner (d :: ds)
    rw [head] at this
    simpa [inner] using this

/-- The groups of a token are digits alone. -/
theorem dotted_groups (isToken : Token before token after) :
    Dotted (['.'].intercalate (groups token)) := by
  refine ⟨groups token, ?_, fun group mem => ⟨ne_nil_of_mem_groups mem, fun c inner => ?_⟩, rfl⟩
  · obtain ⟨d, ds, rfl, digit⟩ := isToken.exists_cons
    obtain ⟨first, rest, split⟩ := List.exists_cons_of_ne_nil (List.splitOnP_ne_nil isMark ds)
    simp [groups, List.splitOnP_cons_eq_if_modifyHead, isMark_of_isDigit digit, split]
  · obtain ⟨within, unmarked⟩ := of_mem_splitOnP (List.mem_filter.1 mem).1 inner
    exact (isToken.inside c within).resolve_right (by simp [unmarked])

end Token

theorem canonical_eq_none_iff {raw : String} :
    canonical raw = none ↔ ∀ c ∈ raw.toList, c.isDigit = false := by
  constructor
  · intro none c mem
    by_contra digit
    obtain ⟨before, token, after, cut, isToken⟩ := exists_token ⟨c, mem, by simpa using digit⟩
    rw [canonical_of_token cut isToken] at none
    cases none
  · intro digitless
    have start : raw.toList.dropWhile (fun c => !c.isDigit) = [] :=
      List.dropWhile_eq_nil_iff.2 (by simpa using digitless)
    rw [canonical, start]

theorem dotted_of_canonical {raw version : String} (h : canonical raw = some version) :
    Dotted version.toList := by
  have digit : ∃ c ∈ raw.toList, c.isDigit := by
    by_contra digitless
    rw [canonical_eq_none_iff.2 (by simpa using digitless)] at h
    cases h
  obtain ⟨before, token, after, cut, isToken⟩ := exists_token digit
  rw [canonical_of_token cut isToken, Option.some.injEq] at h
  rw [← h, String.toList_ofList]
  exact dotted_groups isToken

/-- Groups of digits are found again between the dots. -/
theorem groups_intercalate {pieces : List (List Char)} (nonempty : pieces ≠ [])
    (digits : ∀ piece ∈ pieces, piece ≠ [] ∧ ∀ c ∈ piece, c.isDigit) :
    groups (['.'].intercalate pieces) = pieces := by
  have unmarked : ∀ piece ∈ pieces, ∀ c ∈ piece, isMark c = false := fun piece mem c inner =>
    isMark_of_isDigit ((digits piece mem).2 c inner)
  have split : (['.'].intercalate pieces).splitOnP isMark = pieces := by
    clear digits
    induction pieces with
    | nil => exact absurd rfl nonempty
    | cons piece pieces ih =>
      obtain ⟨here, behind⟩ := List.forall_mem_cons.1 unmarked
      cases pieces with
      | nil => rw [List.intercalate_singleton, List.splitOnP_eq_singleton here]
      | cons next pieces =>
        rw [List.intercalate_cons_cons, List.append_assoc, List.singleton_append,
          List.splitOnP_append_cons_of_forall_mem here '.' rfl, ih (by simp) behind]
  rw [groups, split, List.filter_eq_self]
  intro piece mem
  simpa using (digits piece mem).1

/-- All of a canonical version is its token. -/
theorem Dotted.token {version : List Char} (dotted : Dotted version) : Token [] version [] := by
  obtain ⟨pieces, nonempty, digits, rfl⟩ := dotted
  obtain ⟨piece, pieces, rfl⟩ := List.exists_cons_of_ne_nil nonempty
  obtain ⟨here, behind⟩ := List.forall_mem_cons.1 digits
  obtain ⟨d, ds, rfl⟩ := List.exists_cons_of_ne_nil here.1
  rw [intercalate_dot_cons]
  refine ⟨by simp, ⟨d, rfl, here.2 d List.mem_cons_self⟩, ?_, by simp⟩
  intro c mem
  rcases List.mem_append.1 mem with first | later
  · exact .inl (here.2 c first)
  · obtain ⟨next, listed, mem⟩ := List.mem_flatMap.1 later
    rcases List.mem_cons.1 mem with rfl | inner
    · exact .inr rfl
    · exact .inl ((behind next listed).2 c inner)

/-- Just the canonical versions are left as they are. -/
theorem canonical_eq_self_iff {version : String} :
    canonical version = some version ↔ Dotted version.toList := by
  refine ⟨dotted_of_canonical, fun dotted => ?_⟩
  have kept : canonical version =
      some (String.ofList (['.'].intercalate (groups version.toList))) :=
    canonical_of_token (by simp) dotted.token
  obtain ⟨pieces, nonempty, digits, joined⟩ := dotted
  rw [kept, joined, groups_intercalate nonempty digits, ← joined, String.ofList_toList]

end VersionPolicy

open VersionPolicy

variable {tree : Tree}

/-- A policy that leaves its own results as they are need not be asked twice. -/
theorem meaning_cleanVersion_twice {policy : VersionPolicy}
    (settled : ∀ {raw version}, policy raw = some version → policy version = some version)
    (registry : Registry) (inner : Pattern) (p : Point tree) :
    (Pattern.cleanVersion (.cleanVersion inner)).meaning registry policy tree p =
      (Pattern.cleanVersion inner).meaning registry policy tree p := by
  rw [Pattern.meaning, Pattern.meaning, List.flatMap_assoc]
  refine congrArg (List.flatMap · _) (funext fun q => ?_)
  cases cleaned : policy q.value with
  | none => rfl
  | some version => simp [settled cleaned]

theorem exists_enclose_of_cleanVersion {registry : Registry} {options : Options}
    {pattern : Pattern} {c : Compiled}
    (h : compile registry options (.cleanVersion pattern) = .ok c) :
    ∃ forms, pattern = Pattern.enclose forms pattern.ops ∧
      ∀ form ∈ forms, form.Known registry fun name => (registry.get? name).getD .empty := by
  obtain ⟨negated, forms, same, known⟩ := exists_enclose_of_compile h
  cases negated with
  | true => cases same
  | false =>
    cases forms with
    | nil => cases same
    | cons form forms =>
      cases form with
      | lookup name default => cases same
      | cleanVersion =>
        exact ⟨forms, Pattern.cleanVersion.inj same, (List.forall_mem_cons.1 known).2⟩

theorem walk_cleanVersion_twice {registry : Registry} {options : Options} {pattern : Pattern}
    {c : Compiled}
    (settled : ∀ {raw version}, options.policy raw = some version →
      options.policy version = some version)
    (h : compile registry options (.cleanVersion pattern) = .ok c) :
    ∃ c', compile registry options (.cleanVersion (.cleanVersion pattern)) = .ok c' ∧
      ∀ (tree : Tree) (start : Point tree),
        (c'.plan.walk tree start).result = (c.plan.walk tree start).result := by
  obtain ⟨forms, same, known⟩ := exists_enclose_of_cleanVersion h
  have known_once : ∀ form ∈ Form.cleanVersion :: forms, form.Known registry _ :=
    List.forall_mem_cons.2 ⟨trivial, known⟩
  have known_twice : ∀ form ∈ Form.cleanVersion :: .cleanVersion :: forms, form.Known registry _ :=
    List.forall_mem_cons.2 ⟨trivial, known_once⟩
  obtain ⟨c₁, once, -, walks⟩ := walk_enclose options pattern.ops known_once false
  obtain ⟨c₂, twice, -, walks'⟩ := walk_enclose options pattern.ops known_twice false
  rw [Pattern.negateIf_false, Pattern.enclose_cons, Form.around, ← same, h, Except.ok.injEq] at once
  rw [Pattern.negateIf_false, Pattern.enclose_cons, Pattern.enclose_cons, Form.around, Form.around,
    ← same] at twice
  subst once
  refine ⟨c₂, twice, fun tree start => ?_⟩
  rw [walks, walks', Pattern.negateIf_false, Pattern.negateIf_false]
  exact congrArg (fun points => points.head?.map Point.value)
    (meaning_cleanVersion_twice settled registry _ start)

/-- A text has a canonical version if it has a digit, namely the groups of its token with single dots
between them. Such a version is left as it is, and a pattern that cleans a value twice finds what the
pattern finds that cleans it once. -/
theorem canonical_eq_intercalate_groups (raw : String) :
    (canonical raw = none ↔ ∀ c ∈ raw.toList, c.isDigit = false) ∧
      ((∃ c ∈ raw.toList, c.isDigit) → ∃ before token after,
        raw.toList = before ++ token ++ after ∧ Token before token after ∧
          canonical raw = some (String.ofList (['.'].intercalate (groups token)))) ∧
      (∀ version, canonical raw = some version →
        Dotted version.toList ∧ canonical version = some version) ∧
      ∀ (registry : Registry) (options : Options) (pattern : Pattern) (c : Compiled),
        options.policy = canonical → compile registry options (.cleanVersion pattern) = .ok c →
          ∃ c', compile registry options (.cleanVersion (.cleanVersion pattern)) = .ok c' ∧
            ∀ (tree : Tree) (start : Point tree),
              (c'.plan.walk tree start).result = (c.plan.walk tree start).result := by
  have settled {raw version : String} (h : canonical raw = some version) :
      canonical version = some version := canonical_eq_self_iff.2 (dotted_of_canonical h)
  refine ⟨canonical_eq_none_iff, fun digit => ?_, fun version h => ⟨dotted_of_canonical h, settled h⟩,
    fun registry options pattern c policy h => ?_⟩
  · obtain ⟨before, token, after, cut, isToken⟩ := exists_token digit
    exact ⟨before, token, after, cut, isToken, canonical_of_token cut isToken⟩
  · exact walk_cleanVersion_twice (policy ▸ settled) h

/-- Marks of both kinds in a row, and a letter behind them. -/
theorem canonical_eq_intercalate_groups_build :
    let raw := "build v10._2__0_é3"
    let tree := Tree.leaf "agent" raw
    let options : Options := Options.withStaticIndex {} false
    let pattern : Pattern := .path [.full]
    (∃ c ∈ raw.toList, c.isDigit) ∧ canonical raw = some "10.2.0" ∧
      canonical "10.2.0" = some "10.2.0" ∧
      ∃ c c', compile .empty options (.cleanVersion pattern) = .ok c ∧
        compile .empty options (.cleanVersion (.cleanVersion pattern)) = .ok c' ∧
        (c'.plan.walk tree ⟨tree.root, ""⟩).result = some "10.2.0" := by
  intro raw tree options pattern
  have found : canonical raw = some "10.2.0" := by decide
  have compiled : compile .empty options (.cleanVersion pattern) = .ok _ := rfl
  obtain ⟨-, -, kept, walks⟩ := canonical_eq_intercalate_groups raw
  obtain ⟨c', compiled', same⟩ := walks .empty options pattern _ rfl compiled
  refine ⟨⟨'1', by decide, by decide⟩, found, (kept _ found).2, _, c', compiled, compiled', ?_⟩
  rw [same]
  decide

end TreePattern
