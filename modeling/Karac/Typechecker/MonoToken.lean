import Karac.Lib.PrefixCodes
import Karac.Typechecker.Instantiate

/-! `type_to_mono_mangle_token`: the names of the instances of a generic function. Its tokens are texts without brackets,
which can be read back in one way only where no tuple occurs and no name has an underscore. -/

namespace Karac.Typechecker

open Lib

def ConstArg.asLiteral : ConstArg → Option ℤ
  | .literal n => some n
  | _ => none

mutual

def typeToMonoMangleToken : Ty → Option String
  | .str => some "String"
  | .int s => some (typeDisplay (.int s))
  | .uint s => some (typeDisplay (.uint s))
  | .float s => some (typeDisplay (.float s))
  | .bool => some (typeDisplay .bool)
  | .char => some (typeDisplay .char)
  | .named name args => if args = [] then some name else some (name ++ "_" ++ "_".intercalate (tokenParts args))
  | .shared name => some ("sh_" ++ name)
  | .tuple elems => some ("tup_" ++ "_".intercalate (tokenParts elems))
  | .array element size => do
    let elem ← typeToMonoMangleToken element
    size.asLiteral.map fun n => "Array_" ++ elem ++ "_" ++ toString n
  | .vector element lanes => do
    let elem ← typeToMonoMangleToken element
    lanes.asLiteral.map fun n => "Vector_" ++ elem ++ "_" ++ toString n
  | .slice element mutable => do
    let elem ← typeToMonoMangleToken element
    return "Slice_" ++ (if mutable = true then "mut" else "s") ++ "_" ++ elem
  | .ref inner => typeToMonoMangleToken inner
  | .mutRef inner => typeToMonoMangleToken inner
  | _ => none

/-- The tokens of the parts, `x` for a part that has none. -/
def tokenParts : List Ty → List String
  | [] => []
  | t :: ts => (typeToMonoMangleToken t).getD "x" :: tokenParts ts

end

mutual

/-- The type without `ref` and `mut ref`, where a token looks. -/
def Ty.stripRefs : Ty → Ty
  | .named name args => .named name (stripAll args)
  | .tuple elems => .tuple (stripAll elems)
  | .array element size => .array element.stripRefs size
  | .vector element lanes => .vector element.stripRefs lanes
  | .slice element mutable => .slice element.stripRefs mutable
  | .ref inner => inner.stripRefs
  | .mutRef inner => inner.stripRefs
  | t => t

def stripAll : List Ty → List Ty
  | [] => []
  | t :: ts => t.stripRefs :: stripAll ts

end

/-! The types of a program. -/

/-- How a program declares a nominal type. -/
inductive Declared
  | generic (arity : ℕ)
  | shared
  deriving DecidableEq

/-- The nominal types of a program. -/
structure Program where
  declared : String → Option Declared

/-- A type of the program with no parameter left: its names are declared, and have as many arguments as declared. -/
def Ty.Over (P : Program) : Ty → Prop
  | .tuple es => ∀ e ∈ es, e.Over P
  | .array e _ => e.Over P
  | .vector e _ => e.Over P
  | .slice e _ => e.Over P
  | .named n args => P.declared n = some (.generic args.length) ∧ ∀ a ∈ args, a.Over P
  | .shared n => P.declared n = some .shared
  | .rc x => x.Over P
  | .arc x => x.Over P
  | .function ps r => (∀ p ∈ ps, p.Over P) ∧ r.Over P
  | .onceFunction ps r => (∀ p ∈ ps, p.Over P) ∧ r.Over P
  | .ref x => x.Over P
  | .mutRef x => x.Over P
  | .weak x => x.Over P
  | .pointer _ x => x.Over P
  | .refinement _ base => base.Over P
  | .typeParam _ => False
  | .typeVar _ => False
  | .assocProjection _ _ _ _ => False
  | .existential _ _ _ _ _ => False
  | .error => False
  | _ => True

/-- No two types of the program have one token. -/
def Program.TokensInjective (P : Program) : Prop :=
  ∀ a b : Ty, a.Over P → b.Over P → ∀ token, typeToMonoMangleToken a = some token →
    typeToMonoMangleToken b = some token → a.stripRefs = b.stripRefs

/-! The words of a token. -/

inductive Symbol
  | scalar (t : Ty)
  | nominal (name : String)
  | shared (name : String)
  | array
  | vector
  | slice (mutable : Bool)
  | size (n : ℤ)

namespace Symbol

def words : Symbol → List String
  | .scalar t => [typeDisplay t]
  | .nominal name => [name]
  | .shared name => ["sh", name]
  | .array => ["Array"]
  | .vector => ["Vector"]
  | .slice mutable => ["Slice", if mutable = true then "mut" else "s"]
  | .size n => [toString n]

def rank (P : Program) : Symbol → ℕ
  | .scalar _ => 0
  | .nominal name => match P.declared name with
    | some (.generic arity) => arity
    | _ => 0
  | .shared _ => 0
  | .array => 2
  | .vector => 2
  | .slice _ => 1
  | .size _ => 0

end Symbol

def Ty.isScalar : Ty → Bool
  | .int _ => true
  | .uint _ => true
  | .float _ => true
  | .bool => true
  | .char => true
  | .str => true
  | _ => false

/-- The words that a token begins with without naming a nominal type. -/
def Reserved (w : String) : Prop :=
  w ∈ ["sh", "Array", "Vector", "Slice"] ∨ (∃ n : ℤ, w = toString n) ∨ ∃ t : Ty, t.isScalar = true ∧ w = typeDisplay t

/-- The names of the program are single words, and none of those that a token uses itself. -/
def Program.Plain (P : Program) : Prop := ∀ n, P.declared n ≠ none → '_' ∉ n.toList ∧ ¬ Reserved n

/-- A type without tuples whose parts all have tokens. -/
def Ty.Plain (P : Program) : Ty → Prop
  | .array e n => e.Plain P ∧ n.asLiteral ≠ none
  | .vector e n => e.Plain P ∧ n.asLiteral ≠ none
  | .slice e _ => e.Plain P
  | .named n args => P.declared n = some (.generic args.length) ∧ ∀ a ∈ args, a.Plain P
  | .shared n => P.declared n = some .shared
  | .ref x => x.Plain P
  | .mutRef x => x.Plain P
  | t => t.isScalar = true

mutual

/-- The type as a tree of symbols. -/
def Ty.tree : Ty → RoseTree Symbol
  | .named name args => .node (.nominal name) (trees args)
  | .shared name => .node (.shared name) []
  | .array element size => .node .array [element.tree, .node (.size (size.asLiteral.getD 0)) []]
  | .vector element lanes => .node .vector [element.tree, .node (.size (lanes.asLiteral.getD 0)) []]
  | .slice element mutable => .node (.slice mutable) [element.tree]
  | .ref inner => inner.tree
  | .mutRef inner => inner.tree
  | t => .node (.scalar t) []

def trees : List Ty → List (RoseTree Symbol)
  | [] => []
  | t :: ts => t.tree :: trees ts

end

/-! Two tuple types with one token: brackets and arities leave no trace. -/

def i64Tuple (n : ℕ) : Ty := .tuple (List.replicate n (.int .i64))

/-- `((i64, i64), i64, i64)` and `((i64, i64, i64), i64)`. -/
theorem tuple_tokens_collide :
    typeToMonoMangleToken (.tuple [i64Tuple 2, .int .i64, .int .i64]) = some "tup_tup_i64_i64_i64_i64" ∧
      typeToMonoMangleToken (.tuple [i64Tuple 3, .int .i64]) = some "tup_tup_i64_i64_i64_i64" ∧
        (Ty.tuple [i64Tuple 2, .int .i64, .int .i64]).stripRefs ≠ (Ty.tuple [i64Tuple 3, .int .i64]).stripRefs := by
  refine ⟨by decide, by decide, by decide⟩

theorem Program.not_tokensInjective (P : Program) : ¬ P.TokensInjective := by
  intro h
  obtain ⟨hleft, hright, hne⟩ := tuple_tokens_collide
  refine hne (h _ _ ?_ ?_ _ hleft hright)
  · simp [Ty.Over, i64Tuple]
  · simp [Ty.Over, i64Tuple]

/-! Plain types: the token is the text of the tree. -/

def Symbol.Allowed (P : Program) : Symbol → Prop
  | .scalar t => t.isScalar = true
  | .nominal name => P.declared name ≠ none
  | .shared name => P.declared name ≠ none
  | _ => True

theorem tokenParts_eq_map (ts : List Ty) : tokenParts ts = ts.map fun t => (typeToMonoMangleToken t).getD "x" := by
  induction ts with
  | nil => rfl
  | cons t ts ih => rw [tokenParts, ih, List.map_cons]

theorem trees_eq_map (ts : List Ty) : trees ts = ts.map Ty.tree := by
  induction ts with
  | nil => rfl
  | cons t ts ih => rw [trees, ih, List.map_cons]

theorem stripAll_eq_map (ts : List Ty) : stripAll ts = ts.map Ty.stripRefs := by
  induction ts with
  | nil => rfl
  | cons t ts ih => rw [stripAll, ih, List.map_cons]

theorem Symbol.words_ne_nil (s : Symbol) : s.words ≠ [] := by cases s <;> simp [words]

theorem text_ne_nil (t : RoseTree Symbol) : t.text Symbol.words ≠ [] := by
  cases t with
  | node s args =>
    rw [RoseTree.text]
    exact List.append_ne_nil_of_left_ne_nil s.words_ne_nil _

variable {P : Program}

theorem sized_intercalate (w k : String) {ws : List String} (h : ws ≠ []) :
    "_".intercalate (w :: (ws ++ [k])) = w ++ "_" ++ "_".intercalate ws ++ "_" ++ k := by
  rw [String.intercalate_cons_of_ne_nil (by simp), String.intercalate_append_of_ne_nil h (by simp),
    String.intercalate_singleton]
  simp only [String.append_assoc]

theorem token_of_plain (t : Ty) (h : t.Plain P) :
    typeToMonoMangleToken t = some ("_".intercalate (t.tree.text Symbol.words)) := by
  induction t using Ty.ind with
  | named n args ih =>
    simp only [Ty.Plain] at h
    obtain ⟨-, hargs⟩ := h
    have hparts : tokenParts args = (args.map fun a => a.tree.text Symbol.words).map "_".intercalate := by
      rw [tokenParts_eq_map, List.map_map]
      exact List.map_congr_left fun a ha => by rw [ih a ha (hargs a ha), Option.getD_some, Function.comp_apply]
    have htext : (Ty.named n args).tree.text Symbol.words = n :: (args.map fun a => a.tree.text Symbol.words).flatten := by
      rw [Ty.tree, RoseTree.text, RoseTree.texts_eq_flatMap, trees_eq_map, List.flatMap_map, List.flatMap_def]
      rfl
    rw [typeToMonoMangleToken, htext]
    by_cases hnil : args = []
    · subst hnil
      simp
    · have hflat : (args.map fun a => a.tree.text Symbol.words).flatten ≠ [] := by
        obtain ⟨a, rest, rfl⟩ := List.exists_cons_of_ne_nil hnil
        rw [List.map_cons, List.flatten_cons]
        exact List.append_ne_nil_of_left_ne_nil (text_ne_nil _) _
      rw [if_neg hnil, hparts, intercalate_map_intercalate "_" (by simpa using fun (a : Ty) _ => text_ne_nil a.tree),
        String.intercalate_cons_of_ne_nil hflat]
  | shared n => simp [typeToMonoMangleToken, Ty.tree, RoseTree.text, RoseTree.texts, Symbol.words]
  | array e n ih =>
    simp only [Ty.Plain] at h
    obtain ⟨k, hk⟩ := Option.ne_none_iff_exists'.mp h.2
    have htext : (Ty.array e n).tree.text Symbol.words = "Array" :: (e.tree.text Symbol.words ++ [toString k]) := by
      simp [Ty.tree, RoseTree.text, RoseTree.texts, Symbol.words, hk]
    rw [htext, sized_intercalate _ _ (text_ne_nil e.tree)]
    simp [typeToMonoMangleToken, ih h.1, hk, String.append_assoc]
  | vector e n ih =>
    simp only [Ty.Plain] at h
    obtain ⟨k, hk⟩ := Option.ne_none_iff_exists'.mp h.2
    have htext : (Ty.vector e n).tree.text Symbol.words = "Vector" :: (e.tree.text Symbol.words ++ [toString k]) := by
      simp [Ty.tree, RoseTree.text, RoseTree.texts, Symbol.words, hk]
    rw [htext, sized_intercalate _ _ (text_ne_nil e.tree)]
    simp [typeToMonoMangleToken, ih h.1, hk, String.append_assoc]
  | slice e m ih =>
    simp only [Ty.Plain] at h
    have htext : (Ty.slice e m).tree.text Symbol.words =
        "Slice" :: (if m = true then "mut" else "s") :: e.tree.text Symbol.words := by
      simp [Ty.tree, RoseTree.text, RoseTree.texts, Symbol.words]
    rw [htext, String.intercalate_cons_cons, String.intercalate_cons_of_ne_nil (text_ne_nil e.tree)]
    simp [typeToMonoMangleToken, ih h, String.append_assoc]
  | ref x ih =>
    simp only [Ty.Plain] at h
    exact ih h
  | mutRef x ih =>
    simp only [Ty.Plain] at h
    exact ih h
  | int s | uint s | float s | bool | char | str =>
    simp [typeToMonoMangleToken, Ty.tree, RoseTree.text, RoseTree.texts, Symbol.words, typeDisplay]
  | _ => simp [Ty.Plain, Ty.isScalar] at h

/-! The tree tells the type. -/

mutual

def untree : RoseTree Symbol → Ty
  | .node (.scalar t) _ => t
  | .node (.nominal name) args => .named name (untrees args)
  | .node (.shared name) _ => .shared name
  | .node .array (e :: .node (.size n) _ :: _) => .array (untree e) (.literal n)
  | .node .vector (e :: .node (.size n) _ :: _) => .vector (untree e) (.literal n)
  | .node (.slice mutable) (e :: _) => .slice (untree e) mutable
  | _ => .error

def untrees : List (RoseTree Symbol) → List Ty
  | [] => []
  | t :: ts => untree t :: untrees ts

end

theorem untrees_eq_map (ts : List (RoseTree Symbol)) : untrees ts = ts.map untree := by
  induction ts with
  | nil => rfl
  | cons t ts ih => rw [untrees, ih, List.map_cons]

theorem asLiteral_eq_some {n : ConstArg} (h : n.asLiteral ≠ none) : n = .literal (n.asLiteral.getD 0) := by
  cases n with
  | literal k => rfl
  | _ => exact absurd rfl h

theorem untree_tree (t : Ty) (h : t.Plain P) : untree t.tree = t.stripRefs := by
  induction t using Ty.ind with
  | named n args ih =>
    simp only [Ty.Plain] at h
    rw [Ty.tree, untree, Ty.stripRefs, untrees_eq_map, trees_eq_map, stripAll_eq_map, List.map_map]
    exact congrArg (Ty.named n) (List.map_congr_left fun a ha => ih a ha (h.2 a ha))
  | array e n ih =>
    simp only [Ty.Plain] at h
    rw [Ty.tree, untree, Ty.stripRefs, ih h.1, ← asLiteral_eq_some h.2]
  | vector e n ih =>
    simp only [Ty.Plain] at h
    rw [Ty.tree, untree, Ty.stripRefs, ih h.1, ← asLiteral_eq_some h.2]
  | slice e m ih =>
    simp only [Ty.Plain] at h
    rw [Ty.tree, untree, Ty.stripRefs, ih h]
  | ref x ih =>
    simp only [Ty.Plain] at h
    rw [Ty.tree, Ty.stripRefs, ih h]
  | mutRef x ih =>
    simp only [Ty.Plain] at h
    rw [Ty.tree, Ty.stripRefs, ih h]
  | shared n => rfl
  | int s | uint s | float s | bool | char | str => rfl
  | _ => simp [Ty.Plain, Ty.isScalar] at h

theorem ranked_tree (t : Ty) (h : t.Plain P) : t.tree.Ranked (Symbol.Allowed P) (Symbol.rank P) := by
  induction t using Ty.ind with
  | named n args ih =>
    simp only [Ty.Plain] at h
    obtain ⟨hn, hargs⟩ := h
    rw [Ty.tree, RoseTree.Ranked, trees_eq_map, List.length_map, List.forall_mem_map]
    exact ⟨by simp [Symbol.Allowed, hn], by simp [Symbol.rank, hn], fun a ha => ih a ha (hargs a ha)⟩
  | array e n ih =>
    simp only [Ty.Plain] at h
    simp [Ty.tree, RoseTree.Ranked, Symbol.Allowed, Symbol.rank, ih h.1]
  | vector e n ih =>
    simp only [Ty.Plain] at h
    simp [Ty.tree, RoseTree.Ranked, Symbol.Allowed, Symbol.rank, ih h.1]
  | slice e m ih =>
    simp only [Ty.Plain] at h
    simp [Ty.tree, RoseTree.Ranked, Symbol.Allowed, Symbol.rank, ih h]
  | ref x ih =>
    simp only [Ty.Plain] at h
    exact ih h
  | mutRef x ih =>
    simp only [Ty.Plain] at h
    exact ih h
  | shared n =>
    simp only [Ty.Plain] at h
    simp [Ty.tree, RoseTree.Ranked, Symbol.Allowed, Symbol.rank, h]
  | int s | uint s | float s | bool | char | str => simp [Ty.tree, RoseTree.Ranked, Symbol.Allowed, Symbol.rank, Ty.isScalar]
  | _ => simp [Ty.Plain, Ty.isScalar] at h

/-! The words of plain types are a prefix code. -/

/-- The scalar that a word spells. -/
def scalarOf : String → Ty
  | "i8" => .int .i8
  | "i16" => .int .i16
  | "i32" => .int .i32
  | "i64" => .int .i64
  | "i128" => .int .i128
  | "isize" => .int .isize
  | "u8" => .uint .u8
  | "u16" => .uint .u16
  | "u32" => .uint .u32
  | "u64" => .uint .u64
  | "u128" => .uint .u128
  | "usize" => .uint .usize
  | "f16" => .float .f16
  | "bf16" => .float .bf16
  | "f32" => .float .f32
  | "f64" => .float .f64
  | "bool" => .bool
  | "char" => .char
  | "String" => .str
  | _ => .error

theorem scalarOf_display {t : Ty} (h : t.isScalar = true) : scalarOf (typeDisplay t) = t := by
  cases t with
  | int s | uint s | float s => cases s <;> rfl
  | bool | char | str => rfl
  | _ => cases h

theorem display_ne {t : Ty} (h : t.isScalar = true) {w : String} (hw : scalarOf w = .error) : typeDisplay t ≠ w := by
  rintro rfl
  rw [scalarOf_display h] at hw
  rw [hw] at h
  cases h

theorem display_letter {t : Ty} (h : t.isScalar = true) : ∃ c ∈ (typeDisplay t).toList, c.isAlpha = true := by
  cases t with
  | int s | uint s | float s => cases s <;> simp [typeDisplay, IntSize.display, UIntSize.display, FloatSize.display]
  | bool | char | str => simp [typeDisplay]
  | _ => cases h

theorem display_single {t : Ty} (h : t.isScalar = true) : '_' ∉ (typeDisplay t).toList := by
  cases t with
  | int s | uint s | float s => cases s <;> simp [typeDisplay, IntSize.display, UIntSize.display, FloatSize.display]
  | bool | char | str => simp [typeDisplay]
  | _ => cases h

theorem number_chars {n : ℤ} {c : Char} (hc : c ∈ (toString n).toList) : c.isDigit = true ∨ c = '-' := by
  rw [Int.toString_eq_repr, Int.repr_eq_if] at hc
  split at hc
  · rw [Nat.toList_repr] at hc
    exact .inl (Nat.isDigit_of_mem_toDigits (by omega) (by omega) hc)
  · rw [String.toList_append, Nat.toList_repr, List.mem_append] at hc
    rcases hc with hc | hc
    · exact .inr (by simpa using hc)
    · exact .inl (Nat.isDigit_of_mem_toDigits (by omega) (by omega) hc)

theorem number_ne (n : ℤ) {w : String} (h : ∃ c ∈ w.toList, c.isAlpha = true) : w ≠ toString n := by
  rintro rfl
  obtain ⟨c, hc, halpha⟩ := h
  rcases number_chars hc with hdigit | rfl
  · simp only [Char.isDigit, Char.isAlpha, Char.isUpper, Char.isLower, Bool.and_eq_true, Bool.or_eq_true,
      decide_eq_true_eq] at hdigit halpha
    grind
  · cases halpha

theorem number_single (n : ℤ) : '_' ∉ (toString n).toList := by
  intro h
  rcases number_chars h with hdigit | hsign
  · cases hdigit
  · cases hsign

theorem display_scalarOf {w : String} (h : (scalarOf w).isScalar = true) : typeDisplay (scalarOf w) = w := by
  revert h
  unfold scalarOf
  split <;> simp [typeDisplay, IntSize.display, UIntSize.display, FloatSize.display, Ty.isScalar]

namespace Symbol

/-- The symbol that a list of words begins with. -/
noncomputable def read : List String → Option Symbol
  | "sh" :: name :: _ => some (.shared name)
  | "Array" :: _ => some .array
  | "Vector" :: _ => some .vector
  | "Slice" :: w :: _ => some (.slice (w = "mut"))
  | w :: _ =>
    open Classical in
    if (scalarOf w).isScalar = true then some (.scalar (scalarOf w))
    else if h : ∃ n : ℤ, w = toString n then some (.size h.choose)
    else some (.nominal w)
  | [] => none

theorem read_scalar {w : String} (hw : w ∉ ["sh", "Array", "Vector", "Slice"]) (ws : List String)
    (h : (scalarOf w).isScalar = true) : read (w :: ws) = some (.scalar (scalarOf w)) := by
  simp only [List.mem_cons, List.not_mem_nil, or_false, not_or] at hw
  simp [read, hw, h]

theorem read_size {w : String} (hw : w ∉ ["sh", "Array", "Vector", "Slice"]) (ws : List String)
    (hscalar : (scalarOf w).isScalar = false) (n : ℤ) (h : w = toString n) : read (w :: ws) = some (.size n) := by
  have hex : ∃ n : ℤ, w = toString n := ⟨n, h⟩
  have hn : hex.choose = n := Int.repr_injective (hex.choose_spec.symm.trans h)
  simp only [List.mem_cons, List.not_mem_nil, or_false, not_or] at hw
  simpa [read, hw, hscalar, hn] using hex

theorem read_nominal {w : String} (hw : ¬ Reserved w) (ws : List String) : read (w :: ws) = some (.nominal w) := by
  simp only [Reserved, not_or] at hw
  obtain ⟨hword, hnumber, hscalar⟩ := hw
  have hne : (scalarOf w).isScalar = false := by
    by_contra h
    exact hscalar ⟨scalarOf w, by simpa using h, (display_scalarOf (by simpa using h)).symm⟩
  simp only [List.mem_cons, List.not_mem_nil, or_false, not_or] at hword
  simpa [read, hword, hne] using hnumber

theorem read_words (hP : P.Plain) {s : Symbol} (hs : s.Allowed P) (rest : List String) : read (s.words ++ rest) = some s := by
  cases s with
  | scalar t =>
    have hscalar : scalarOf (typeDisplay t) = t := scalarOf_display hs
    have hw : typeDisplay t ∉ ["sh", "Array", "Vector", "Slice"] := by
      simp [display_ne hs (w := "sh") rfl, display_ne hs (w := "Array") rfl, display_ne hs (w := "Vector") rfl,
        display_ne hs (w := "Slice") rfl]
    have hread := read_scalar hw rest (by rwa [hscalar])
    rwa [hscalar] at hread
  | nominal name => exact read_nominal (hP name hs).2 rest
  | shared name => rfl
  | array => rfl
  | vector => rfl
  | slice m => cases m <;> rfl
  | size n =>
    have hw : toString n ∉ ["sh", "Array", "Vector", "Slice"] := by
      intro h
      refine number_ne n ?_ rfl
      simp only [List.mem_cons, List.not_mem_nil, or_false] at h
      rcases h with h | h | h | h <;> rw [h] <;> simp
    refine read_size hw rest ?_ n rfl
    by_contra h
    exact number_ne n (display_letter (by simpa using h)) (display_scalarOf (by simpa using h))

theorem prefixCode (hP : P.Plain) : RoseTree.PrefixCode (Allowed P) words := by
  intro s s' rest rest' hs hs' h
  have hread := read_words hP hs rest
  rw [h, read_words hP hs' rest', Option.some.injEq] at hread
  exact hread.symm

theorem words_single (hP : P.Plain) {s : Symbol} (hs : s.Allowed P) : ∀ w ∈ s.words, '_' ∉ w.toList := by
  cases s with
  | scalar t => simpa [words] using display_single hs
  | nominal name => simpa [words] using (hP name hs).1
  | shared name => simpa [words] using (hP name hs).1
  | array => simp [words]
  | vector => simp [words]
  | slice m => cases m <;> simp [words]
  | size n => simpa [words] using number_single n

end Symbol

theorem text_single (hP : P.Plain) (t : RoseTree Symbol) (h : t.Ranked (Symbol.Allowed P) (Symbol.rank P)) :
    ∀ w ∈ t.text Symbol.words, '_' ∉ w.toList := by
  induction t using RoseTree.ind with
  | node s args ih =>
    simp only [RoseTree.Ranked] at h
    obtain ⟨hs, -, hargs⟩ := h
    intro w hw
    rw [RoseTree.text, RoseTree.texts_eq_flatMap, List.mem_append, List.mem_flatMap] at hw
    rcases hw with hw | ⟨t, ht, hw⟩
    · exact Symbol.words_single hP hs w hw
    · exact ih t ht (hargs t ht) w hw

/-- Plain types with one token are one type. -/
theorem plain_tokens_inj (hP : P.Plain) {a b : Ty} (ha : a.Plain P) (hb : b.Plain P)
    (h : typeToMonoMangleToken a = typeToMonoMangleToken b) : a.stripRefs = b.stripRefs := by
  have hra := ranked_tree a ha
  have hrb := ranked_tree b hb
  rw [token_of_plain a ha, token_of_plain b hb, Option.some.injEq] at h
  have hwords : a.tree.text Symbol.words = b.tree.text Symbol.words :=
    intercalate_inj (text_single hP _ hra) (text_single hP _ hrb) (text_ne_nil _) (text_ne_nil _) h
  have htexts : a.tree.text Symbol.words ++ [] = b.tree.text Symbol.words ++ [] := by rw [hwords]
  have htree : a.tree = b.tree := (RoseTree.text_inj (Symbol.prefixCode hP) hra hrb htexts).1
  rw [← untree_tree a ha, htree, untree_tree b hb]

/-- In no program do tokens tell all types apart, tuples being flattened; they do tell the plain types apart. -/
theorem tokens_tell_plain_types (P : Program) :
    ¬ P.TokensInjective ∧ (P.Plain → ∀ a b : Ty, a.Plain P → b.Plain P →
      typeToMonoMangleToken a = typeToMonoMangleToken b → a.stripRefs = b.stripRefs) := by
  refine ⟨P.not_tokensInjective, ?_⟩
  intro hP a b ha hb h
  exact plain_tokens_inj hP ha hb h

/-- One declared type, `Vec[T]`. -/
def vecProgram : Program where
  declared n := if n = "Vec" then some (.generic 1) else none

theorem vecProgram_plain : vecProgram.Plain := by
  intro n hn
  obtain rfl : n = "Vec" := by
    by_contra h
    exact hn (if_neg h)
  refine ⟨by simp, ?_⟩
  rintro (hword | ⟨k, hk⟩ | ⟨t, ht, hdisplay⟩)
  · simp at hword
  · exact number_ne k ⟨'V', by simp, rfl⟩ hk
  · exact display_ne ht rfl hdisplay.symm

/-- `Vec[Slice[mut ref i64]]` and `Vec[Slice[i64]]`: one token, and one type without references. -/
theorem tokens_tell_plain_types_vec :
    ¬ vecProgram.TokensInjective ∧
      (Ty.named "Vec" [.slice (.mutRef (.int .i64)) false]).stripRefs =
        (Ty.named "Vec" [.slice (.int .i64) false]).stripRefs := by
  obtain ⟨hnever, hplain⟩ := tokens_tell_plain_types vecProgram
  refine ⟨hnever, hplain vecProgram_plain _ _ ?_ ?_ ?_⟩
  · simp [Ty.Plain, vecProgram, Ty.isScalar]
  · simp [Ty.Plain, vecProgram, Ty.isScalar]
  · simp [typeToMonoMangleToken, tokenParts]

/-- `Vec[((i64, i64), i64, i64)]` and `Vec[((i64, i64, i64), i64)]` share a compiled body. -/
theorem tokens_not_injective :
    ∃ a b : Ty, a.Over vecProgram ∧ b.Over vecProgram ∧
      typeToMonoMangleToken a = some "Vec_tup_tup_i64_i64_i64_i64" ∧
        typeToMonoMangleToken b = some "Vec_tup_tup_i64_i64_i64_i64" ∧ a.stripRefs ≠ b.stripRefs := by
  refine ⟨.named "Vec" [.tuple [i64Tuple 2, .int .i64, .int .i64]], .named "Vec" [.tuple [i64Tuple 3, .int .i64]], ?_, ?_,
    by decide, by decide, by decide⟩
  · simp [Ty.Over, vecProgram, i64Tuple]
  · simp [Ty.Over, vecProgram, i64Tuple]

end Karac.Typechecker
