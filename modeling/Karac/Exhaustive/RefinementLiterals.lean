import Karac.Exhaustive.Lowering

/-! Refinement predicates as they are written. The parser keeps an unsigned literal of the top half as the signed number
with its bits, and the collector of the bounds reads that number as it stands, where the patterns read it back. The
interval is exact unless such a literal makes the difference. -/

namespace Karac.Exhaustive

/-- The suffixes whose top half rides the 64-bit signed carrier. -/
def IntSuffix.wraps : IntSuffix → Bool
  | .u8 | .u16 | .u32 | .u64 | .usize => true
  | _ => false

def IntSuffix.signed : IntSuffix → Bool
  | .i8 | .i16 | .i32 | .i64 | .i128 => true
  | _ => false

/-- The payload of the literal's node; none where the parser rejects the literal. -/
def literalPayload (m : ℕ) (sfx : Option IntSuffix) : Option ℤ :=
  if m < 2 ^ 63 then some m
  else if sfx = some .i128 ∨ sfx = some .u128 then
    if m < 2 ^ 127 then some m
    else if sfx = some .u128 ∧ m < 2 ^ 128 then some (m - 2 ^ 128)
    else none
  else if m < 2 ^ 64 ∧ sfx.any IntSuffix.wraps = true then some (m - 2 ^ 64)
  else none

/-- A predicate with its literals as written. A minus goes with a literal of a signed type: the others have no negative
values. -/
inductive WrittenPred
  | selfValue
  | integer (m : ℕ) (sfx : Option IntSuffix)
  | negative (m : ℕ) (sfx : Option IntSuffix) (signed : sfx.all IntSuffix.signed = true)
  | identifier (name : String)
  | path (segments : List String)
  | binary (op : BinOp) (left right : WrittenPred)
  | other

namespace WrittenPred

/-- The node of a negated literal: the least numbers are folded, as their magnitude has no node of its own. -/
def negated (m : ℕ) (sfx : Option IntSuffix) : Option PredExpr :=
  if m = 2 ^ 63 then some (.integer (-2 ^ 63))
  else if m = 2 ^ 127 ∧ sfx = some .i128 then some (.integer (-2 ^ 127))
  else (literalPayload m sfx).map fun n => .neg (.integer n)

/-- What the parser makes of the predicate. -/
def parsed : WrittenPred → Option PredExpr
  | .selfValue => some .selfValue
  | .integer m sfx => (literalPayload m sfx).map .integer
  | .negative m sfx _ => negated m sfx
  | .identifier name => some (.identifier name)
  | .path segments => some (.path segments)
  | .binary op left right => left.parsed.bind fun l => right.parsed.map fun r => .binary op l r
  | .other => some .other

/-- The predicate with every literal the number it denotes. -/
def meant : WrittenPred → PredExpr
  | .selfValue => .selfValue
  | .integer m _ => .integer m
  | .negative m _ _ => .integer (-m)
  | .identifier name => .identifier name
  | .path segments => .path segments
  | .binary op left right => .binary op left.meant right.meant
  | .other => .other

def isSelf : WrittenPred → Bool
  | .selfValue => true
  | _ => false

/-- A constant, as the collector reads it and as it is meant. -/
def const (env : TypeEnv) : WrittenPred → Option (ℤ × ℤ)
  | .integer m sfx => (literalPayload m sfx).map fun n => (n, (m : ℤ))
  | .negative m _ _ => some (-m, -m)
  | .identifier name => (env.constValues name).map fun k => (k, k)
  | .path [name] => (env.constValues name).map fun k => (k, k)
  | _ => none

end WrittenPred

/-- A comparison of `self` with a constant as an inclusive bound: as it is read, and as it is meant. -/
structure Comparison where
  lower : Bool
  read : ℤ
  value : ℤ

namespace Comparison

def oriented (op : BinOp) (k : ℤ × ℤ) : Option Comparison :=
  (orientedBound op k.1).bind fun p => (orientedBound op k.2).map fun q => ⟨p.2, p.1, q.1⟩

/-- `x` is on the right side of the bound. -/
def Holds (lower : Bool) (bound x : ℤ) : Prop := if lower then bound ≤ x else x ≤ bound

end Comparison

namespace WrittenPred

def comparison (env : TypeEnv) (op : BinOp) (left right : WrittenPred) : Option Comparison :=
  if left.isSelf then (right.const env).bind (Comparison.oriented op)
  else if right.isSelf then (flipComparison op).bind fun op => (left.const env).bind (Comparison.oriented op)
  else none

/-- The comparisons of a conjunction. -/
def comparisons (env : TypeEnv) : WrittenPred → List Comparison
  | .binary .and left right => left.comparisons env ++ right.comparisons env
  | .binary op left right => (comparison env op left right).toList
  | _ => []

end WrittenPred

/-- A literal is read as it is meant, or it is in the top half of an unsigned type and read as a negative number. -/
structure ReadAs (n m : ℤ) : Prop where
  wrapped : n ≠ m → n < 0 ∧ 2 ^ 63 ≤ m ∧ m ≠ i128Max

theorem literalPayload_spec {m : ℕ} {sfx : Option IntSuffix} {n : ℤ} (h : literalPayload m sfx = some n) :
    ReadAs n m := by
  refine ⟨fun hne => ?_⟩
  unfold literalPayload at h
  unfold i128Max
  split_ifs at h <;> obtain rfl := Option.some.inj h <;> first | exact absurd rfl hne | omega

theorem ReadAs.refl (n : ℤ) : ReadAs n n := ⟨fun hne => absurd rfl hne⟩

theorem literalPayload_signed {m : ℕ} {sfx : Option IntSuffix} {n : ℤ} (hs : sfx.all IntSuffix.signed = true)
    (h : literalPayload m sfx = some n) : n = m := by
  have hu128 : sfx ≠ some .u128 := fun heq => by simp [heq, IntSuffix.signed] at hs
  have hwraps : sfx.any IntSuffix.wraps ≠ true := by
    cases sfx with
    | none => simp
    | some s => cases s <;> simp_all [IntSuffix.signed, IntSuffix.wraps]
  unfold literalPayload at h
  split_ifs at h
  · exact (Option.some.inj h).symm
  · exact (Option.some.inj h).symm
  · exact absurd (by tauto) hu128
  · exact absurd (by tauto) hwraps

/-! What is read and what is meant, comparison by comparison. -/

section Reading

variable {env : TypeEnv} {w : WrittenPred} {e : PredExpr}

theorem isSelf_parsed (h : w.parsed = some e) : isSelf e = w.isSelf := by
  cases w with
  | selfValue => exact Option.some.inj h ▸ rfl
  | integer m sfx =>
    obtain ⟨n, -, rfl⟩ := Option.map_eq_some_iff.mp h
    rfl
  | negative m sfx signed =>
    simp only [WrittenPred.parsed, WrittenPred.negated] at h
    split_ifs at h
    · exact Option.some.inj h ▸ rfl
    · exact Option.some.inj h ▸ rfl
    · obtain ⟨n, -, rfl⟩ := Option.map_eq_some_iff.mp h
      rfl
  | binary op left right =>
    obtain ⟨l, -, h⟩ := Option.bind_eq_some_iff.mp h
    obtain ⟨r, -, rfl⟩ := Option.map_eq_some_iff.mp h
    rfl
  | identifier | path | other => exact Option.some.inj h ▸ rfl

theorem isSelf_meant (w : WrittenPred) : isSelf w.meant = w.isSelf := by
  cases w <;> rfl

theorem const_parsed {k : ℤ} (h : w.parsed = some e) (hk : refinementConstInt env e = some k) :
    ∃ v, w.const env = some (k, v) ∧ refinementConstInt env w.meant = some v ∧ ReadAs k v := by
  cases w with
  | integer m sfx =>
    obtain ⟨n, hn, rfl⟩ := Option.map_eq_some_iff.mp h
    obtain rfl := Option.some.inj hk
    exact ⟨m, by simp [WrittenPred.const, hn], rfl, literalPayload_spec hn⟩
  | negative m sfx signed =>
    have hval : k = -m := by
      simp only [WrittenPred.parsed, WrittenPred.negated] at h
      split_ifs at h with hmin hmin128
      · obtain rfl := Option.some.inj h
        rw [← Option.some.inj hk, hmin]
        norm_num
      · obtain rfl := Option.some.inj h
        rw [← Option.some.inj hk, hmin128.1]
        norm_num
      · obtain ⟨n, hn, rfl⟩ := Option.map_eq_some_iff.mp h
        obtain ⟨-, hk⟩ := Option.ite_none_left_eq_some.mp hk
        rw [← Option.some.inj hk, literalPayload_signed signed hn]
    subst hval
    exact ⟨-m, rfl, rfl, ReadAs.refl _⟩
  | identifier name =>
    obtain rfl := Option.some.inj h
    have hk : env.constValues name = some k := hk
    exact ⟨k, by simp [WrittenPred.const, hk], hk, ReadAs.refl k⟩
  | path segments =>
    obtain rfl := Option.some.inj h
    obtain _ | ⟨name, _ | ⟨_, _⟩⟩ := segments
    · exact absurd hk (by simp [refinementConstInt])
    · have hk : env.constValues name = some k := hk
      exact ⟨k, by simp [WrittenPred.const, hk], hk, ReadAs.refl k⟩
    · exact absurd hk (by simp [refinementConstInt])
  | binary op left right =>
    obtain ⟨l, -, h⟩ := Option.bind_eq_some_iff.mp h
    obtain ⟨r, -, rfl⟩ := Option.map_eq_some_iff.mp h
    exact absurd hk (by simp [refinementConstInt])
  | selfValue | other =>
    obtain rfl := Option.some.inj h
    exact absurd hk (by simp [refinementConstInt])

/-- A comparison is read as it is meant, or its literal is in the top half: then a lower bound is read as one that every
number of an unsigned type is above, and an upper bound as a negative one. -/
structure Comparison.Read (c : Comparison) : Prop where
  lower : c.lower = true → c.read ≠ c.value → c.read ≤ 0 ∧ 0 < c.value
  upper : c.lower = false → c.read ≠ c.value → c.read < 0 ∧ 0 < c.value

theorem oriented_spec {op : BinOp} {k v : ℤ} {p : ℤ × Bool} (hkv : ReadAs k v) (h : orientedBound op k = some p) :
    ∃ c, Comparison.oriented op (k, v) = some c ∧ c.Read ∧ p = (c.read, c.lower) ∧
      orientedBound op v = some (c.value, c.lower) := by
  have hv : k ≠ v → k < 0 ∧ 2 ^ 63 ≤ v ∧ v ≠ i128Max := hkv.wrapped
  cases op with
  | gtEq =>
    obtain rfl := Option.some.inj h
    exact ⟨⟨true, k, v⟩, rfl, ⟨fun _ hne => by have := hv hne; dsimp only; omega, fun hl => by simp at hl⟩, rfl, rfl⟩
  | ltEq =>
    obtain rfl := Option.some.inj h
    exact ⟨⟨false, k, v⟩, rfl, ⟨fun hl => by simp at hl, fun _ hne => by have := hv hne; dsimp only; omega⟩, rfl, rfl⟩
  | gt =>
    obtain ⟨hk, h⟩ := Option.ite_none_left_eq_some.mp h
    obtain rfl := Option.some.inj h
    have hmax : v ≠ i128Max := fun heq => by
      by_cases hne : k = v
      · exact hk (hne.trans heq)
      · exact (hv hne).2.2 heq
    have hvalue : orientedBound .gt v = some (v + 1, true) := if_neg hmax
    refine ⟨⟨true, k + 1, v + 1⟩, ?_, ⟨fun _ hne => ?_, fun hl => by simp at hl⟩, rfl, hvalue⟩
    · rw [Comparison.oriented, hvalue, orientedBound, if_neg hk]
      rfl
    · have := hv fun heq => hne (by rw [heq])
      dsimp only
      omega
  | lt =>
    obtain ⟨hk, h⟩ := Option.ite_none_left_eq_some.mp h
    obtain rfl := Option.some.inj h
    have hmin : v ≠ i128Min := fun heq => by
      by_cases hne : k = v
      · exact hk (hne.trans heq)
      · have := (hv hne).2.1
        rw [heq, i128Min] at this
        omega
    have hvalue : orientedBound .lt v = some (v - 1, false) := if_neg hmin
    refine ⟨⟨false, k - 1, v - 1⟩, ?_, ⟨fun hl => by simp at hl, fun _ hne => ?_⟩, rfl, hvalue⟩
    · rw [Comparison.oriented, hvalue, orientedBound, if_neg hk]
      rfl
    · have := hv fun heq => hne (by rw [heq])
      dsimp only
      omega
  | and => exact absurd h (by simp [orientedBound])
  | other => exact absurd h (by simp [orientedBound])

theorem comparison_parsed {op : BinOp} {left right : WrittenPred} {l r : PredExpr} {p : ℤ × Bool}
    (hl : left.parsed = some l) (hr : right.parsed = some r) (h : comparisonBound env op l r = some p) :
    ∃ c, WrittenPred.comparison env op left right = some c ∧ c.Read ∧ p = (c.read, c.lower) ∧
      comparisonBound env op left.meant right.meant = some (c.value, c.lower) := by
  unfold comparisonBound at h ⊢
  rw [WrittenPred.comparison, isSelf_meant, isSelf_meant]
  rw [isSelf_parsed hl, isSelf_parsed hr] at h
  split_ifs at h ⊢
  · obtain ⟨k, hk, h⟩ := Option.bind_eq_some_iff.mp h
    obtain ⟨v, hconst, hmeant, hkv⟩ := const_parsed hr hk
    rw [hconst, hmeant]
    exact oriented_spec hkv h
  · obtain ⟨op', hop, h⟩ := Option.bind_eq_some_iff.mp h
    obtain ⟨k, hk, h⟩ := Option.bind_eq_some_iff.mp h
    obtain ⟨v, hconst, hmeant, hkv⟩ := const_parsed hl hk
    rw [hop, hconst, hmeant]
    exact oriented_spec hkv h

theorem inBounds_tighten {b : Option ℤ × Option ℤ} {lower : Bool} {k x : ℤ} :
    InBounds (if lower then (some (b.1.elim k (max · k)), b.2) else (b.1, some (b.2.elim k (min · k)))) x ↔
      InBounds b x ∧ Comparison.Holds lower k x := by
  obtain ⟨lo, hi⟩ := b
  cases lower <;> cases lo <;> cases hi <;> simp [InBounds, Comparison.Holds] <;> tauto

theorem comparisons_parsed (x : ℤ) : ∀ {e : PredExpr} {b b' : Option ℤ × Option ℤ}, w.parsed = some e →
    collectRefinementBounds env e b = some b' →
    (∀ c ∈ w.comparisons env, c.Read) ∧
      (InBounds b' x ↔ InBounds b x ∧ ∀ c ∈ w.comparisons env, Comparison.Holds c.lower c.read x) ∧
      ∃ t, evalPred env x w.meant = some t ∧
        (t = true ↔ ∀ c ∈ w.comparisons env, Comparison.Holds c.lower c.value x) := by
  induction w with
  | binary op left right ihl ihr =>
    intro e b b' hparsed h
    obtain ⟨l, hl, hparsed⟩ := Option.bind_eq_some_iff.mp hparsed
    obtain ⟨r, hr, rfl⟩ := Option.map_eq_some_iff.mp hparsed
    by_cases hop : op = .and
    · subst hop
      obtain ⟨b₁, hb₁, h⟩ := Option.bind_eq_some_iff.mp h
      obtain ⟨hreadl, hboundl, t, ht, hmeantl⟩ := ihl hl hb₁
      obtain ⟨hreadr, hboundr, u, hu, hmeantr⟩ := ihr hr h
      have happ : (WrittenPred.binary .and left right).comparisons env =
        left.comparisons env ++ right.comparisons env := rfl
      rw [happ]
      refine ⟨fun c hc => (List.mem_append.mp hc).elim (hreadl c) (hreadr c), ?_, t && u, ?_, ?_⟩
      · rw [hboundr, hboundl, List.forall_mem_append, and_assoc]
      · simp [WrittenPred.meant, evalPred, ht, hu]
      · rw [Bool.and_eq_true, hmeantl, hmeantr, List.forall_mem_append]
    · have hstep : collectRefinementBounds env (.binary op l r) b =
          (comparisonBound env op l r).map fun p =>
            if p.2 then (some (b.1.elim p.1 (max · p.1)), b.2) else (b.1, some (b.2.elim p.1 (min · p.1))) := by
        cases op <;> first | exact absurd rfl hop | rfl
      have hlist : (WrittenPred.binary op left right).comparisons env =
          (WrittenPred.comparison env op left right).toList := by
        cases op <;> first | exact absurd rfl hop | rfl
      rw [hstep] at h
      obtain ⟨p, hp, rfl⟩ := Option.map_eq_some_iff.mp h
      obtain ⟨c, hc, hread, rfl, hmeant⟩ := comparison_parsed hl hr hp
      obtain ⟨t, ht, hiff⟩ := comparisonBound_spec hmeant x
      rw [hlist, hc, Option.toList_some]
      simp only [List.forall_mem_singleton]
      refine ⟨hread, inBounds_tighten, t, ht, hiff⟩
  | integer m sfx =>
    intro e b b' hparsed h
    obtain ⟨n, -, rfl⟩ := Option.map_eq_some_iff.mp hparsed
    exact absurd h (by simp [collectRefinementBounds])
  | negative m sfx signed =>
    intro e b b' hparsed h
    simp only [WrittenPred.parsed, WrittenPred.negated] at hparsed
    split_ifs at hparsed
    · obtain rfl := Option.some.inj hparsed
      exact absurd h (by simp [collectRefinementBounds])
    · obtain rfl := Option.some.inj hparsed
      exact absurd h (by simp [collectRefinementBounds])
    · obtain ⟨n, -, rfl⟩ := Option.map_eq_some_iff.mp hparsed
      exact absurd h (by simp [collectRefinementBounds])
  | selfValue | identifier | path | other =>
    intro e b b' hparsed h
    obtain rfl := Option.some.inj hparsed
    exact absurd h (by simp [collectRefinementBounds])

end Reading

section Intervals

variable {cs : List Comparison} {dmin dmax lo hi : ℤ}

/-- The comparisons as read, or as meant, are satisfied on `[lo, hi]` and nowhere else in the domain. -/
def ExactOn (dmin dmax lo hi : ℤ) (cs : List Comparison) (bound : Comparison → ℤ) : Prop :=
  ∀ x, dmin ≤ x → x ≤ dmax → ((∀ c ∈ cs, Comparison.Holds c.lower (bound c) x) ↔ lo ≤ x ∧ x ≤ hi)

/-- Every comparison whose literal is read as another number is redundant: one on the same side that is read as it is
meant is at least as tight as it, both as read and as meant. -/
def RedundantWraps (cs : List Comparison) : Prop :=
  ∀ c ∈ cs, c.read ≠ c.value → ∃ d ∈ cs, d.lower = c.lower ∧ d.read = d.value ∧
    if c.lower then c.value ≤ d.value else d.value ≤ c.read

theorem holds_iff_of_redundant (hread : ∀ c ∈ cs, c.Read) (hred : RedundantWraps cs) (x : ℤ) :
    (∀ c ∈ cs, Comparison.Holds c.lower c.value x) ↔ ∀ c ∈ cs, Comparison.Holds c.lower c.read x := by
  refine ⟨fun h c hc => ?_, fun h c hc => ?_⟩
  · by_cases hne : c.read = c.value
    · rw [hne]
      exact h c hc
    · obtain ⟨d, hd, hside, hplain, htight⟩ := hred c hc hne
      have hdx := h d hd
      cases hl : c.lower with
      | true =>
        have hw := (hread c hc).lower hl hne
        have hcx := h c hc
        simp only [Comparison.Holds, hl, if_true] at hcx ⊢
        omega
      | false =>
        simp only [Comparison.Holds, hside, hl, Bool.false_eq_true, if_false] at hdx htight ⊢
        omega
  · by_cases hne : c.read = c.value
    · rw [← hne]
      exact h c hc
    · obtain ⟨d, hd, hside, hplain, htight⟩ := hred c hc hne
      have hdx := h d hd
      cases hl : c.lower with
      | true =>
        simp only [Comparison.Holds, hside, hl, if_true] at hdx htight ⊢
        omega
      | false =>
        have hw := (hread c hc).upper hl hne
        have hcx := h c hc
        simp only [Comparison.Holds, hl, Bool.false_eq_true, if_false] at hcx ⊢
        omega

variable (hread : ∀ c ∈ cs, c.Read) (hmin : dmin ≤ 0) (hmax : 0 ≤ dmax) (hlo : dmin ≤ lo) (hle : lo ≤ hi)
  (hhi : hi ≤ dmax)
include hread hmin hmax hlo hle hhi

/-- The end of an interval that is exact is the bound of a comparison. -/
theorem redundant_of_exact (hasRead : ExactOn dmin dmax lo hi cs Comparison.read)
    (hasMeant : ExactOn dmin dmax lo hi cs Comparison.value) : RedundantWraps cs := by
  intro c hc hne
  cases hl : c.lower with
  | true =>
    have hw := (hread c hc).lower hl hne
    -- the least point of the interval is meant, so it is above the bound; the point below it is not read, and what ends
    -- there is a comparison that is read as it is meant
    have hmeant := (hasMeant lo hlo (by omega)).mpr ⟨le_refl lo, hle⟩
    have hc' := hmeant c hc
    simp only [Comparison.Holds, hl, if_true] at hc'
    have hbelow : ¬ ∀ d ∈ cs, Comparison.Holds d.lower d.read (lo - 1) := fun hall => by
      have := ((hasRead (lo - 1) (by omega) (by omega)).mp hall).1
      omega
    push Not at hbelow
    obtain ⟨d, hd, hfails⟩ := hbelow
    have hdlo := (hasRead lo hlo (by omega)).mpr ⟨le_refl lo, hle⟩ d hd
    cases hdl : d.lower with
    | true =>
      simp only [Comparison.Holds, hdl, if_true] at hfails hdlo
      have hplain : d.read = d.value := by
        by_contra hdne
        have := (hread d hd).lower hdl hdne
        omega
      exact ⟨d, hd, hdl, hplain, by rw [if_pos rfl]; omega⟩
    | false =>
      simp only [Comparison.Holds, hdl, Bool.false_eq_true, if_false] at hfails hdlo
      omega
  | false =>
    have hw := (hread c hc).upper hl hne
    have hasc := (hasRead hi (by omega) hhi).mpr ⟨hle, le_refl hi⟩ c hc
    simp only [Comparison.Holds, hl, Bool.false_eq_true, if_false] at hasc
    have habove : ¬ ∀ d ∈ cs, Comparison.Holds d.lower d.value (hi + 1) := fun hall => by
      have := ((hasMeant (hi + 1) (by omega) (by omega)).mp hall).2
      omega
    push Not at habove
    obtain ⟨d, hd, hfails⟩ := habove
    have hdhi := (hasMeant hi (by omega) hhi).mpr ⟨hle, le_refl hi⟩ d hd
    cases hdl : d.lower with
    | true =>
      simp only [Comparison.Holds, hdl, if_true] at hfails hdhi
      omega
    | false =>
      simp only [Comparison.Holds, hdl, Bool.false_eq_true, if_false] at hfails hdhi
      have hplain : d.read = d.value := by
        by_contra hdne
        have := (hread d hd).upper hdl hdne
        omega
      exact ⟨d, hd, hdl, hplain, by simp only [Bool.false_eq_true, if_false]; omega⟩

theorem exact_iff_redundant (hasRead : ExactOn dmin dmax lo hi cs Comparison.read) :
    ExactOn dmin dmax lo hi cs Comparison.value ↔ RedundantWraps cs := by
  refine ⟨redundant_of_exact hread hmin hmax hlo hle hhi hasRead, fun hred x hx hx' => ?_⟩
  rw [holds_iff_of_redundant hread hred]
  exact hasRead x hx hx'

end Intervals

theorem intDomain_bounds {ty : Ty} {dmin dmax : ℤ} (h : intDomain ty = some (dmin, dmax)) : dmin ≤ 0 ∧ 0 ≤ dmax := by
  cases ty with
  | int s =>
    cases s <;> simp only [intDomain, intSizeDomain, Option.some.injEq, Prod.mk.injEq, reduceCtorEq] at h <;> omega
  | uint s =>
    cases s <;> simp only [intDomain, uintSizeDomain, Option.some.injEq, Prod.mk.injEq, reduceCtorEq] at h <;> omega
  | char =>
    obtain ⟨rfl, rfl⟩ := Prod.mk.inj (Option.some.inj h)
    omega
  | _ => exact absurd h (by simp [intDomain])

/-- A type has the interval `[lo, hi]` as its domain. Its predicate holds of the integers of the base type that lie in
the interval, and of no others, if and only if every comparison with a literal of an unsigned top half is redundant. -/
theorem refinement_bounds_exact_iff (env : TypeEnv) (ty base : Ty) (name : String) (dmin dmax lo hi : ℤ)
    (hbase : refinementBase env ty = some (name, base)) (hdomain : intDomain base = some (dmin, dmax))
    (w : WrittenPred) (pred : PredExpr) (hpred : env.refinementPredicates name = some pred)
    (hparsed : w.parsed = some pred) (h : refinementFiniteDomain env ty = some (lo, hi)) :
    (∀ x, dmin ≤ x → x ≤ dmax → (evalPred env x w.meant = some true ↔ lo ≤ x ∧ x ≤ hi)) ↔
      RedundantWraps (w.comparisons env) := by
  obtain ⟨name', base', pred', dmin', dmax', a, b, hb, hd, hp, hab, rfl, rfl, hle⟩ := refinementFiniteDomain_spec h
  obtain ⟨rfl, rfl⟩ := Prod.mk.inj (Option.some.inj (hbase.symm.trans hb))
  obtain ⟨rfl, rfl⟩ := Prod.mk.inj (Option.some.inj (hdomain.symm.trans hd))
  obtain rfl := Option.some.inj (hpred.symm.trans hp)
  have hcollect : collectRefinementBounds env pred (none, none) = some (some a, some b) := by
    unfold refinementPredBounds at hab
    split at hab
    · rename_i l u hc
      obtain ⟨rfl, rfl⟩ := Prod.mk.inj (Option.some.inj hab)
      exact hc
    · exact absurd hab (by simp)
  have hcs := fun x => comparisons_parsed x hparsed hcollect
  obtain ⟨hmin, hmax⟩ := intDomain_bounds hdomain
  have hasRead : ExactOn dmin dmax (max a dmin) (min b dmax) (w.comparisons env) Comparison.read := fun x hx hx' => by
    have hbounds := (hcs x).2.1
    simp only [InBounds, Option.some.injEq, forall_eq', reduceCtorEq, false_implies, implies_true, true_and] at hbounds
    rw [← hbounds]
    omega
  have hmeant : (∀ x, dmin ≤ x → x ≤ dmax → (evalPred env x w.meant = some true ↔ max a dmin ≤ x ∧ x ≤ min b dmax)) ↔
      ExactOn dmin dmax (max a dmin) (min b dmax) (w.comparisons env) Comparison.value := by
    refine forall_congr' fun x => forall_congr' fun _ => forall_congr' fun _ => ?_
    obtain ⟨-, -, t, ht, hiff⟩ := hcs x
    rw [ht, Option.some.injEq, hiff]
  rw [hmeant]
  exact exact_iff_redundant (hcs 0).1 hmin hmax (by omega) hle (by omega) hasRead

/-- `self >= 18446744073709551615u64 and self <= 100`, which nothing satisfies. -/
def aboveTopHalf : WrittenPred :=
  .binary .and (.binary .gtEq .selfValue (.integer (2 ^ 64 - 1) (some .u64)))
    (.binary .ltEq .selfValue (.integer 100 (some .u64)))

/-- `self >= 18 and 100 > self`. -/
def adultAge : WrittenPred :=
  .binary .and (.binary .gtEq .selfValue (.integer 18 none)) (.binary .gt (.integer 100 none) .selfValue)

theorem no_distinct_base (name : String) (h : (none : Option Ty).isSome = true) :
    (none : Option EnumInfo) = none ∧ (none : Option StructInfo) = none ∧ name ≠ "Vec" :=
  absurd h (by simp)

def literalsEnv : TypeEnv where
  enums := fun _ => none
  structs := fun _ => none
  distinctBases := fun _ => none
  refinementPredicates := fun name =>
    if name = "None" then aboveTopHalf.parsed else if name = "Age" then adultAge.parsed else none
  constValues := fun _ => none
  distinct_only := no_distinct_base

theorem refinement_bounds_exact_iff_age :
    (∀ x, 0 ≤ x → x ≤ 2 ^ 8 - 1 → (evalPred literalsEnv x adultAge.meant = some true ↔ 18 ≤ x ∧ x ≤ 99)) ↔
      RedundantWraps (adultAge.comparisons literalsEnv) :=
  refinement_bounds_exact_iff literalsEnv (.refinement "Age" (.uint .u8)) (.uint .u8) "Age" 0 (2 ^ 8 - 1) 18 99 rfl rfl
    adultAge _ rfl rfl rfl

/-- The lower bound is read as -1 and the domain is `[0, 100]`. -/
theorem top_half_bound_read_wrapped :
    aboveTopHalf.parsed = literalsEnv.refinementPredicates "None" ∧
      refinementFiniteDomain literalsEnv (.refinement "None" (.uint .u64)) = some (0, 100) ∧
      ¬(evalPred literalsEnv 5 aboveTopHalf.meant = some true ↔ (0 : ℤ) ≤ 5 ∧ (5 : ℤ) ≤ 100) := by
  refine ⟨rfl, rfl, fun h => ?_⟩
  exact absurd (h.mpr (by decide)) (by decide)

end Karac.Exhaustive
