import Mathlib

/-! `karac fix`: the edits that the phases attach to their diagnostics, and the rewrite of the source by them. A text is
its bytes; an arbitrary function stands for the number of errors the parser finds in one. -/

namespace Karac.Cli

abbrev Text := List UInt8

def usizeMax : ℕ := 2 ^ 64 - 1

def isizeMax : ℕ := 2 ^ 63 - 1

def saturatingAdd (a b : ℕ) : ℕ := min (a + b) usizeMax

structure TextEdit where
  offset : ℕ
  length : ℕ
  replacement : Text
  deriving DecidableEq

/-- `edit.offset.saturating_add(edit.length)`. -/
def TextEdit.stop (e : TextEdit) : ℕ := saturatingAdd e.offset e.length

structure Span where
  offset : ℕ
  length : ℕ
  deriving DecidableEq

structure FixIt where
  span : Span
  replacement : Text
  deriving DecidableEq

def FixIt.edit (f : FixIt) : TextEdit := ⟨f.span.offset, f.span.length, f.replacement⟩

/-! What the phases found. A map is the list of its values, in the order in which it yields them. -/

structure Parsed where
  errors : ℕ
  fixEdits : List TextEdit
  fixDiffs : List (List TextEdit)

structure Resolved where
  /-- The replacement of each error. -/
  errors : List (Option TextEdit)
  errorFixDiffs : List (List TextEdit)

structure Effects where
  errors : List (Option TextEdit)

structure Ownership where
  errors : List (Option TextEdit)
  notes : List (Option TextEdit)
  errorFixDiffs : List (List TextEdit)

structure Typed where
  /-- The fix-it of each error. -/
  errors : List (Option FixIt)
  warnings : List (Option FixIt)

structure Pipeline where
  parsed : Parsed
  resolved : Option Resolved
  effects : Option Effects
  ownership : Option Ownership
  typed : Option Typed

section Collect

def Resolved.edits (r : Resolved) : List TextEdit := r.errors.filterMap id ++ r.errorFixDiffs.flatten

def Effects.edits (ef : Effects) : List TextEdit := ef.errors.filterMap id

def Ownership.edits (o : Ownership) : List TextEdit :=
  o.errors.filterMap id ++ o.notes.filterMap id ++ o.errorFixDiffs.flatten

def Typed.edits (t : Typed) : List TextEdit :=
  t.errors.filterMap (·.map FixIt.edit) ++ t.warnings.filterMap (·.map FixIt.edit)

variable (pipeline : Pipeline)

def Pipeline.hasParseErrors : Bool := decide (0 < pipeline.parsed.errors)

/-- All edits, envelopes flattened. -/
def Pipeline.edits : List TextEdit :=
  if pipeline.hasParseErrors = true then pipeline.parsed.fixEdits ++ pipeline.parsed.fixDiffs.flatten
  else (pipeline.resolved.elim [] Resolved.edits) ++ (pipeline.effects.elim [] Effects.edits) ++
    (pipeline.ownership.elim [] Ownership.edits) ++ (pipeline.typed.elim [] Typed.edits)

end Collect

/-! The overlap filter. -/

/-- `edits.sort_by_key(|e| Reverse(e.offset))`. The sort is stable. -/
def sortByOffset (edits : List TextEdit) : List TextEdit := edits.mergeSort fun e f => decide (f.offset ≤ e.offset)

/-- One turn of the loop that fills `deduped`, with `last_start`. -/
def dedupStep (state : List TextEdit × ℕ) (edit : TextEdit) : List TextEdit × ℕ :=
  if state.2 < edit.stop then state else (state.1 ++ [edit], edit.offset)

def deduped (edits : List TextEdit) : List TextEdit := ((sortByOffset edits).foldl dedupStep ([], usizeMax)).1

/-! The application. -/

/-- `str::is_char_boundary`: the byte there is no continuation byte. -/
def isCharBoundary (text : Text) (index : ℕ) : Bool :=
  if index = 0 then true
  else match text[index]? with
    | none => index == text.length
    | some byte => !(0x80 ≤ byte && byte < 0xC0)

inductive ApplyError
  /-- The edit would write past the end of the file. -/
  | pastEnd
  /-- `String::replace_range` panics. -/
  | notOnBoundary

def replaceRange (text : Text) (start stop : ℕ) (replacement : Text) : Except ApplyError Text :=
  if isCharBoundary text start && isCharBoundary text stop then
    .ok (text.take start ++ replacement ++ text.drop stop)
  else .error .notOnBoundary

def applyEdit (rewritten : Text) (edit : TextEdit) : Except ApplyError Text :=
  if rewritten.length < edit.stop then .error .pastEnd
  else replaceRange rewritten edit.offset edit.stop edit.replacement

def applyEdits (source : Text) (edits : List TextEdit) : Except ApplyError Text := edits.foldlM applyEdit source

inductive Outcome
  /-- Parse errors, none of which has an edit: they are printed. -/
  | parseErrors
  /-- No fixable diagnostics. -/
  | noFixes
  /-- The dry run's list. -/
  | wouldApply (edits : List TextEdit)
  /-- Nothing is written, because an edit does not fit. -/
  | aborted (error : ApplyError)
  /-- Nothing is written, because the rewrite parses worse. -/
  | refused (before after : ℕ)
  /-- The file is written, and reported as fixed by `edits`. -/
  | applied (edits : List TextEdit) (rewritten : Text)

/-- `cmd_fix`. -/
def cmdFix (parseErrors : Text → ℕ) (source : Text) (pipeline : Pipeline) (dryRun : Bool) : Outcome :=
  let edits := pipeline.edits
  if edits = [] then if pipeline.hasParseErrors = true then .parseErrors else .noFixes
  else if dryRun = true then .wouldApply (deduped edits).reverse
  else match applyEdits source (deduped edits) with
    | .error e => .aborted e
    | .ok rewritten =>
      if pipeline.parsed.errors < parseErrors rewritten then .refused pipeline.parsed.errors (parseErrors rewritten)
      else .applied (deduped edits) rewritten

/-! What an application is to do. -/

/-- `source` from `pos` on, with the ranges of `edits`, which go upwards, replaced by their texts. -/
def spliced (source : Text) (pos : ℕ) : List TextEdit → Text
  | [] => source.drop pos
  | e :: edits => (source.drop pos).take (e.offset - pos) ++ e.replacement ++ spliced source (e.offset + e.length) edits

/-- The ranges have no byte in common, and neither reaches over an insertion point of the other. -/
def TextEdit.Disjoint (e f : TextEdit) : Prop := e.offset + e.length ≤ f.offset ∨ f.offset + f.length ≤ e.offset

/-- `rewritten` is `source` with `applied` done, a choice among the edits of `fixes` that takes none twice and each fix
as a whole. -/
structure Faithful (source : Text) (fixes : List (List TextEdit)) (applied : List TextEdit) (rewritten : Text) :
    Prop where
  subset : ∀ e ∈ applied, ∃ fix ∈ fixes, e ∈ fix
  disjoint : applied.Pairwise TextEdit.Disjoint
  text : ∃ upwards, upwards.Perm applied ∧ upwards.Pairwise (fun e f => e.offset + e.length ≤ f.offset) ∧
    rewritten = spliced source 0 upwards
  once : applied.Nodup
  whole : ∀ fix ∈ fixes, (∀ e ∈ fix, e ∈ applied) ∨ ∀ e ∈ fix, e ∉ applied

section Fixes

def singles (edits : List (Option TextEdit)) : List (List TextEdit) := (edits.filterMap id).map ([·])

def fixIts (fixes : List (Option FixIt)) : List (List TextEdit) := (fixes.filterMap (·.map FixIt.edit)).map ([·])

def Resolved.fixes (r : Resolved) : List (List TextEdit) := singles r.errors ++ r.errorFixDiffs

def Effects.fixes (ef : Effects) : List (List TextEdit) := singles ef.errors

def Ownership.fixes (o : Ownership) : List (List TextEdit) := singles o.errors ++ singles o.notes ++ o.errorFixDiffs

def Typed.fixes (t : Typed) : List (List TextEdit) := fixIts t.errors ++ fixIts t.warnings

/-- The fixes: an edit on its own, or an envelope. -/
def Pipeline.fixes (pipeline : Pipeline) : List (List TextEdit) :=
  if pipeline.hasParseErrors = true then pipeline.parsed.fixEdits.map ([·]) ++ pipeline.parsed.fixDiffs
  else (pipeline.resolved.elim [] Resolved.fixes) ++ (pipeline.effects.elim [] Effects.fixes) ++
    (pipeline.ownership.elim [] Ownership.fixes) ++ (pipeline.typed.elim [] Typed.fixes)

@[simp] theorem flatten_singles (edits : List (Option TextEdit)) : (singles edits).flatten = edits.filterMap id := by
  rw [singles, ← List.flatMap_def, List.flatMap_singleton']

@[simp] theorem flatten_fixIts (fixes : List (Option FixIt)) :
    (fixIts fixes).flatten = fixes.filterMap (·.map FixIt.edit) := by
  rw [fixIts, ← List.flatMap_def, List.flatMap_singleton']

/-- The edits are those of the fixes, in order. -/
theorem Pipeline.edits_eq_flatten (pipeline : Pipeline) : pipeline.edits = pipeline.fixes.flatten := by
  have hmap : ∀ edits : List TextEdit, (edits.map ([·])).flatten = edits := fun edits => by
    rw [← List.flatMap_def, List.flatMap_singleton']
  rw [Pipeline.edits, Pipeline.fixes]
  split
  · rw [List.flatten_append, hmap]
  · cases pipeline.resolved <;> cases pipeline.effects <;> cases pipeline.ownership <;> cases pipeline.typed <;>
      simp [Resolved.edits, Effects.edits, Ownership.edits, Typed.edits, Resolved.fixes, Effects.fixes,
        Ownership.fixes, Typed.fixes]

end Fixes

end Karac.Cli
