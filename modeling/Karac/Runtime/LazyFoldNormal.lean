import Karac.Runtime.LazyFoldFuel

/-! What `fold_expr` gives is folded already: folding the links of a chain again changes nothing. -/

namespace Karac.Runtime.Lazy

variable {F : Type} [F64 F]

/-! The equations of the source. -/

theorem foldExpr_cmp (op : CmpOp) (l r : ExprNode F) : foldExpr (.cmp op l r) = foldCmp op (foldExpr l) (foldExpr r) := by
  have hsize : (ExprNode.cmp op l r).size = l.size + r.size + 1 := rfl
  rw [foldExpr, hsize, foldFuel, foldFuel_eq (by omega), foldFuel_eq (by omega)]

theorem foldExpr_arith (op : ArithOp) (l r : ExprNode F) :
    foldExpr (.arith op l r) = foldArith op (foldExpr l) (foldExpr r) := by
  have hsize : (ExprNode.arith op l r).size = l.size + r.size + 1 := rfl
  rw [foldExpr, hsize, foldFuel, foldFuel_eq (by omega), foldFuel_eq (by omega)]

theorem foldExpr_not (x : ExprNode F) : foldExpr (.not x) = foldNot (foldExpr x) := by
  have hsize : (ExprNode.not x).size = x.size + 1 := rfl
  rw [foldExpr, hsize, foldFuel, foldFuel_eq (by omega)]

theorem foldExpr_desc (x : ExprNode F) : foldExpr (.desc x) = .desc (foldExpr x) := by
  have hsize : (ExprNode.desc x).size = x.size + 1 := rfl
  rw [foldExpr, hsize, foldFuel, foldFuel_eq (by omega)]

theorem foldExpr_agg (op : AggOp) (x : ExprNode F) : foldExpr (.agg op x) = .agg op (foldExpr x) := by
  have hsize : (ExprNode.agg op x).size = x.size + 1 := rfl
  rw [foldExpr, hsize, foldFuel, foldFuel_eq (by omega)]

theorem foldExpr_aliased (name : String) (x : ExprNode F) : foldExpr (.aliased name x) = .aliased name (foldExpr x) := by
  have hsize : (ExprNode.aliased name x).size = x.size + 1 := rfl
  rw [foldExpr, hsize, foldFuel, foldFuel_eq (by omega)]

theorem foldExpr_connect (isAnd : Bool) (a b : ExprNode F) :
    foldExpr (connect isAnd a b) = rebuildChain isAnd (flattenBoolChain isAnd (connect isAnd a b)) := by
  cases isAnd <;> rfl

theorem flattenBoolChain_connect (isAnd : Bool) (a b : ExprNode F) :
    flattenBoolChain isAnd (connect isAnd a b) =
      flattenBoolChain isAnd (foldExpr a) ++ flattenBoolChain isAnd (foldExpr b) := by
  have hlink : ∀ n, a.size + b.size + 1 ≤ n → ∀ x : ExprNode F, x.size ≤ a.size + b.size →
      flattenFuel (2 * n - 1) isAnd (foldFuel (2 * n - 1) x) = flattenBoolChain isAnd (foldExpr x) := by
    intro n hn x hx
    rw [foldFuel_eq (by omega)]
    have hsize := (size_fuel (2 * x.size + 1)).1 x
    rw [← foldExpr] at hsize
    exact flattenFuel_eq (by omega)
  have hfuel : 2 * (connect isAnd a b).size = (2 * (a.size + b.size + 1) - 1) + 1 := by
    rw [size_connect]
    omega
  have ha := hlink _ le_rfl a (by omega)
  have hb := hlink _ le_rfl b (by omega)
  rw [flattenBoolChain, hfuel, ← ha, ← hb]
  cases isAnd <;> rfl

/-- The leaves of a chain as it stands. -/
def spine : Bool → ExprNode F → List (ExprNode F)
  | true, .and a b => spine true a ++ spine true b
  | false, .or a b => spine false a ++ spine false b
  | _, e => [e]

omit [F64 F] in
theorem spine_connect (isAnd : Bool) (a b : ExprNode F) :
    spine isAnd (connect isAnd a b) = spine isAnd a ++ spine isAnd b := by
  cases isAnd <;> rfl

omit [F64 F] in
omit [F64 F] in
/-- Induction along the links of one chain. -/
theorem spineInduction (isAnd : Bool) {P : ExprNode F → Prop} (leaf : ∀ e, (∀ a b, e ≠ connect isAnd a b) → P e)
    (link : ∀ a b, P a → P b → P (connect isAnd a b)) (e : ExprNode F) : P e := by
  induction e with
  | and a b iha ihb =>
    cases isAnd with
    | true => exact link a b iha ihb
    | false => exact leaf _ fun c d => by rintro ⟨⟩
  | or a b iha ihb =>
    cases isAnd with
    | true => exact leaf _ fun c d => by rintro ⟨⟩
    | false => exact link a b iha ihb
  | _ => exact leaf _ fun c d => by cases isAnd <;> rintro ⟨⟩

omit [F64 F] in
theorem spine_leaf {isAnd : Bool} {e : ExprNode F} (h : ∀ a b, e ≠ connect isAnd a b) : spine isAnd e = [e] := by
  cases isAnd with
  | true =>
    cases e with
    | and a b => exact absurd rfl (h a b)
    | _ => rfl
  | false =>
    cases e with
    | or a b => exact absurd rfl (h a b)
    | _ => rfl

theorem flattenBoolChain_leaf {isAnd : Bool} {e : ExprNode F} (h : ∀ a b, e ≠ connect isAnd a b) :
    flattenBoolChain isAnd e = [e] := by
  have hfuel : 2 * e.size = (2 * e.size - 1) + 1 := by
    have := e.size_pos
    omega
  rw [flattenBoolChain, hfuel]
  cases isAnd with
  | true =>
    cases e with
    | and a b => exact absurd rfl (h a b)
    | _ => rfl
  | false =>
    cases e with
    | or a b => exact absurd rfl (h a b)
    | _ => rfl

/-! Chains that are kept as they are. -/

/-- No constant and no link equal to one before it. -/
structure Clean (leaves : List (ExprNode F)) : Prop where
  noBool : ∀ leaf ∈ leaves, ∀ b, leaf ≠ .litBool b
  distinct : leaves.Pairwise fun x y => x.beq y = false

theorem keptLeaves_of_clean {isAnd : Bool} {out leaves : List (ExprNode F)} (h : Clean (out ++ leaves)) :
    keptLeaves isAnd leaves out = some (out ++ leaves) := by
  induction leaves generalizing out with
  | nil => rw [keptLeaves, List.append_nil]
  | cons leaf leaves ih =>
    have hnew : (out.any fun x => x.beq leaf) = false := by
      rw [List.any_eq_false]
      intro x hx
      have hpair := (List.pairwise_append.mp h.distinct).2.2 x hx leaf List.mem_cons_self
      rw [hpair]
      exact Bool.false_ne_true
    rw [keptLeaves_leaf (h.noBool leaf (by simp)), hnew, if_neg Bool.false_ne_true]
    have hback : out ++ leaf :: leaves = out ++ [leaf] ++ leaves := by simp
    rw [hback] at h ⊢
    exact ih h

/-- What is kept is clean, and among what there was. -/
theorem clean_keptLeaves {isAnd : Bool} {out leaves kept : List (ExprNode F)} (h : keptLeaves isAnd leaves out = some kept)
    (hout : Clean out) : Clean kept ∧ ∀ leaf ∈ kept, leaf ∈ out ∨ leaf ∈ leaves := by
  induction leaves generalizing out with
  | nil =>
    cases h
    exact ⟨hout, fun leaf hleaf => .inl hleaf⟩
  | cons leaf leaves ih =>
    rcases litBool_or_not leaf with ⟨b, rfl⟩ | hleaf
    · rw [keptLeaves_litBool] at h
      split at h
      · obtain ⟨hclean, hmem⟩ := ih h hout
        exact ⟨hclean, fun x hx => (hmem x hx).imp_right (List.mem_cons_of_mem _)⟩
      · cases h
    · rw [keptLeaves_leaf hleaf] at h
      split at h
      · obtain ⟨hclean, hmem⟩ := ih h hout
        exact ⟨hclean, fun x hx => (hmem x hx).imp_right (List.mem_cons_of_mem _)⟩
      · next hany =>
        have hnew : Clean (out ++ [leaf]) := by
          refine ⟨?_, List.pairwise_append.mpr ⟨hout.distinct, List.pairwise_singleton _ _, ?_⟩⟩
          · intro x hx
            rcases List.mem_append.mp hx with hx | hx
            · exact hout.noBool x hx
            · obtain rfl := List.mem_singleton.mp hx
              exact hleaf
          · intro x hx y hy
            obtain rfl := List.mem_singleton.mp hy
            rw [Bool.not_eq_true, List.any_eq_false] at hany
            exact Bool.eq_false_iff.mpr (hany x hx)
        obtain ⟨hclean, hmem⟩ := ih h hnew
        refine ⟨hclean, fun x hx => ?_⟩
        rcases hmem x hx with hold | hrest
        · rcases List.mem_append.mp hold with hold | hlast
          · exact .inl hold
          · obtain rfl := List.mem_singleton.mp hlast
            exact .inr List.mem_cons_self
        · exact .inr (List.mem_cons_of_mem _ hrest)

omit [F64 F] in
omit [F64 F] in
/-! Folded expressions. -/

/-- No more is to be folded. A chain is nested to the left, of leaves without constants and duplicates. -/
inductive Normal : ExprNode F → Prop
  | col (n : String) : Normal (.col n)
  | litInt (v : Int64) : Normal (.litInt v)
  | litFloat (v : F) : Normal (.litFloat v)
  | litStr (s : String) : Normal (.litStr s)
  | litBool (b : Bool) : Normal (.litBool b)
  | cmp {op : CmpOp} {l r : ExprNode F} : Normal l → Normal r → literalOrder op l r = none → Normal (.cmp op l r)
  | arith {op : ArithOp} {l r : ExprNode F} : Normal l → Normal r → literalArith op l r = none → Normal (.arith op l r)
  | not {x : ExprNode F} : Normal x → (∀ b, x ≠ .litBool b) → (∀ y, x ≠ .not y) → Normal (.not x)
  | desc {x : ExprNode F} : Normal x → Normal (.desc x)
  | agg {op : AggOp} {x : ExprNode F} : Normal x → Normal (.agg op x)
  | aliased {name : String} {x : ExprNode F} : Normal x → Normal (.aliased name x)
  | and {a b : ExprNode F} : Normal a → Normal b → spine true b = [b] → Clean (spine true a ++ [b]) → Normal (.and a b)
  | or {a b : ExprNode F} : Normal a → Normal b → spine false b = [b] → Clean (spine false a ++ [b]) → Normal (.or a b)

theorem normal_connect_iff {isAnd : Bool} {a b : ExprNode F} :
    Normal (connect isAnd a b) ↔
      Normal a ∧ Normal b ∧ spine isAnd b = [b] ∧ Clean (spine isAnd a ++ [b]) := by
  cases isAnd with
  | true =>
    constructor
    · rintro ⟨⟩
      next ha hb hleaf hclean => exact ⟨ha, hb, hleaf, hclean⟩
    · rintro ⟨ha, hb, hleaf, hclean⟩
      exact .and ha hb hleaf hclean
  | false =>
    constructor
    · rintro ⟨⟩
      next ha hb hleaf hclean => exact ⟨ha, hb, hleaf, hclean⟩
    · rintro ⟨ha, hb, hleaf, hclean⟩
      exact .or ha hb hleaf hclean

/-- A leaf of a chain is a folded expression, and no link of that chain. -/
theorem normal_of_mem_spine {isAnd : Bool} {e leaf : ExprNode F} (h : Normal e) (hleaf : leaf ∈ spine isAnd e) :
    Normal leaf ∧ spine isAnd leaf = [leaf] := by
  induction e using spineInduction isAnd with
  | leaf e he =>
    rw [spine_leaf he] at hleaf
    obtain rfl := List.mem_singleton.mp hleaf
    exact ⟨h, spine_leaf he⟩
  | link a b iha ihb =>
    obtain ⟨ha, hb, hlast, -⟩ := normal_connect_iff.mp h
    rw [spine_connect, List.mem_append] at hleaf
    rcases hleaf with hleft | hright
    · exact iha ha hleft
    · exact ihb hb hright

omit [F64 F] in
theorem spine_ne_nil (isAnd : Bool) (e : ExprNode F) : spine isAnd e ≠ [] := by
  induction e using spineInduction isAnd with
  | leaf e he =>
    rw [spine_leaf he]
    exact List.cons_ne_nil _ _
  | link a b iha ihb =>
    rw [spine_connect]
    exact List.append_ne_nil_of_left_ne_nil iha _

omit [F64 F] in
theorem chainOf_append {isAnd : Bool} {leaves : List (ExprNode F)} (hne : leaves ≠ []) (leaf : ExprNode F) :
    chainOf isAnd (leaves ++ [leaf]) = connect isAnd (chainOf isAnd leaves) leaf := by
  cases leaves with
  | nil => exact absurd rfl hne
  | cons first rest => rw [List.cons_append, chainOf, List.foldl_append, chainOf, List.foldl_cons, List.foldl_nil]

theorem chainOf_spine {isAnd : Bool} {e : ExprNode F} (h : Normal e) : chainOf isAnd (spine isAnd e) = e := by
  induction e using spineInduction isAnd with
  | leaf e he =>
    rw [spine_leaf he]
    rfl
  | link a b iha ihb =>
    obtain ⟨ha, -, hlast, -⟩ := normal_connect_iff.mp h
    rw [spine_connect, hlast, chainOf_append (spine_ne_nil isAnd a), iha ha]

theorem rebuildChain_spine {isAnd : Bool} {a b : ExprNode F} (h : Normal (connect isAnd a b)) :
    rebuildChain isAnd (spine isAnd (connect isAnd a b)) = connect isAnd a b := by
  obtain ⟨-, -, hlast, hclean⟩ := normal_connect_iff.mp h
  have hspine : spine isAnd (connect isAnd a b) = spine isAnd a ++ [b] := by rw [spine_connect, hlast]
  have hkept : keptLeaves isAnd (spine isAnd (connect isAnd a b)) [] = some (spine isAnd (connect isAnd a b)) := by
    rw [hspine]
    exact keptLeaves_of_clean hclean
  rw [rebuildChain, hkept]
  exact chainOf_spine h

/-- A folded expression is folded to itself, and flattened as it stands. -/
theorem foldExpr_of_normal {e : ExprNode F} (h : Normal e) :
    foldExpr e = e ∧ ∀ isAnd, flattenBoolChain isAnd e = spine isAnd e := by
  have hflat : ∀ {e : ExprNode F} {isAnd}, (∀ a b, e ≠ connect isAnd a b) → flattenBoolChain isAnd e = spine isAnd e := by
    intro e isAnd he
    rw [flattenBoolChain_leaf he, spine_leaf he]
  have hchain : ∀ (isAnd : Bool) {a b : ExprNode F}, Normal (connect isAnd a b) →
      (foldExpr a = a ∧ ∀ t, flattenBoolChain t a = spine t a) → (foldExpr b = b ∧ ∀ t, flattenBoolChain t b = spine t b) →
      foldExpr (connect isAnd a b) = connect isAnd a b ∧
        flattenBoolChain isAnd (connect isAnd a b) = spine isAnd (connect isAnd a b) := by
    intro isAnd a b hnormal ha hb
    have hlinks : flattenBoolChain isAnd (connect isAnd a b) = spine isAnd (connect isAnd a b) := by
      rw [flattenBoolChain_connect, ha.1, hb.1, ha.2, hb.2, spine_connect]
    refine ⟨?_, hlinks⟩
    rw [foldExpr_connect, hlinks, rebuildChain_spine hnormal]
  induction h with
  | cmp hl hr hlit ihl ihr =>
    refine ⟨?_, fun isAnd => hflat fun a b => by cases isAnd <;> rintro ⟨⟩⟩
    rw [foldExpr_cmp, ihl.1, ihr.1, foldCmp, hlit]
  | arith hl hr hlit ihl ihr =>
    refine ⟨?_, fun isAnd => hflat fun a b => by cases isAnd <;> rintro ⟨⟩⟩
    rw [foldExpr_arith, ihl.1, ihr.1, foldArith, hlit, Option.getD_none]
  | @not x hx hbool hnot ih =>
    refine ⟨?_, fun isAnd => hflat fun a b => by cases isAnd <;> rintro ⟨⟩⟩
    rw [foldExpr_not, ih.1, foldNot]
    · exact hbool
    · exact hnot
  | desc hx ih =>
    refine ⟨?_, fun isAnd => hflat fun a b => by cases isAnd <;> rintro ⟨⟩⟩
    rw [foldExpr_desc, ih.1]
  | agg hx ih =>
    refine ⟨?_, fun isAnd => hflat fun a b => by cases isAnd <;> rintro ⟨⟩⟩
    rw [foldExpr_agg, ih.1]
  | aliased hx ih =>
    refine ⟨?_, fun isAnd => hflat fun a b => by cases isAnd <;> rintro ⟨⟩⟩
    rw [foldExpr_aliased, ih.1]
  | @and a b ha hb hlast hclean iha ihb =>
    obtain ⟨hfold, hlinks⟩ := hchain true (.and ha hb hlast hclean) iha ihb
    refine ⟨hfold, fun isAnd => ?_⟩
    cases isAnd with
    | true => exact hlinks
    | false => exact hflat fun c d => by rintro ⟨⟩
  | @or a b ha hb hlast hclean iha ihb =>
    obtain ⟨hfold, hlinks⟩ := hchain false (.or ha hb hlast hclean) iha ihb
    refine ⟨hfold, fun isAnd => ?_⟩
    cases isAnd with
    | true => exact hflat fun c d => by rintro ⟨⟩
    | false => exact hlinks
  | _ => exact ⟨rfl, fun isAnd => hflat fun a b => by cases isAnd <;> rintro ⟨⟩⟩

theorem normal_foldl_connect {isAnd : Bool} {acc : ExprNode F} {rest : List (ExprNode F)} (hacc : Normal acc)
    (hrest : ∀ leaf ∈ rest, Normal leaf ∧ spine isAnd leaf = [leaf]) (hclean : Clean (spine isAnd acc ++ rest)) :
    Normal (rest.foldl (connect isAnd) acc) := by
  induction rest generalizing acc with
  | nil => exact hacc
  | cons leaf rest ih =>
    obtain ⟨⟨hleaf, hlast⟩, hrest⟩ := List.forall_mem_cons.mp hrest
    have hback : spine isAnd acc ++ leaf :: rest = spine isAnd acc ++ [leaf] ++ rest := by simp
    rw [hback] at hclean
    have hfront : Clean (spine isAnd acc ++ [leaf]) :=
      ⟨fun x hx => hclean.noBool x (List.mem_append_left _ hx), (List.pairwise_append.mp hclean.distinct).1⟩
    refine ih (normal_connect_iff.mpr ⟨hacc, hleaf, hlast, hfront⟩) hrest ?_
    rwa [spine_connect, hlast]

theorem normal_rebuildChain {isAnd : Bool} {leaves : List (ExprNode F)}
    (h : ∀ leaf ∈ leaves, Normal leaf ∧ spine isAnd leaf = [leaf]) : Normal (rebuildChain isAnd leaves) := by
  rw [rebuildChain]
  split
  · next out hout =>
    obtain ⟨hclean, hmem⟩ := clean_keptLeaves hout ⟨by simp, List.Pairwise.nil⟩
    have hkept : ∀ leaf ∈ out, Normal leaf ∧ spine isAnd leaf = [leaf] := fun leaf hleaf =>
      h leaf ((hmem leaf hleaf).resolve_left List.not_mem_nil)
    cases out with
    | nil => exact .litBool isAnd
    | cons first rest =>
      obtain ⟨⟨hfirst, hspine⟩, hrest⟩ := List.forall_mem_cons.mp hkept
      exact normal_foldl_connect hfirst hrest (by rwa [hspine])
  · exact .litBool _

theorem normal_foldCmp {op : CmpOp} {l r : ExprNode F} (hl : Normal l) (hr : Normal r) : Normal (foldCmp op l r) := by
  rw [foldCmp]
  split
  · exact .litBool _
  · next hlit => exact .cmp hl hr hlit

theorem normal_foldArith {op : ArithOp} {l r : ExprNode F} (hl : Normal l) (hr : Normal r) :
    Normal (foldArith op l r) := by
  rw [foldArith]
  cases hlit : literalArith op l r with
  | none => exact .arith hl hr hlit
  | some e =>
    rw [Option.getD_some]
    unfold literalArith at hlit
    split at hlit
    · split_ifs at hlit
      obtain ⟨v, -, rfl⟩ := Option.map_eq_some_iff.mp hlit
      exact .litInt v
    all_goals cases hlit <;> exact .litFloat _

theorem normal_foldNot {x : ExprNode F} (hx : Normal x) : Normal (foldNot x) := by
  unfold foldNot
  split
  · exact .litBool _
  · rcases hx with ⟨⟩
    next hy _ _ => exact hy
  · next hbool hnot => exact .not hx hbool hnot

theorem normal_foldExpr (e : ExprNode F) : Normal (foldExpr e) := by
  have hchain : ∀ (isAnd : Bool) {a b : ExprNode F}, Normal (foldExpr a) → Normal (foldExpr b) →
      Normal (foldExpr (connect isAnd a b)) := by
    intro isAnd a b ha hb
    rw [foldExpr_connect, flattenBoolChain_connect, (foldExpr_of_normal ha).2, (foldExpr_of_normal hb).2]
    refine normal_rebuildChain fun leaf hleaf => ?_
    rcases List.mem_append.mp hleaf with hleft | hright
    · exact normal_of_mem_spine ha hleft
    · exact normal_of_mem_spine hb hright
  induction e with
  | cmp op l r ihl ihr =>
    rw [foldExpr_cmp]
    exact normal_foldCmp ihl ihr
  | arith op l r ihl ihr =>
    rw [foldExpr_arith]
    exact normal_foldArith ihl ihr
  | and a b iha ihb => exact hchain true iha ihb
  | or a b iha ihb => exact hchain false iha ihb
  | not x ih =>
    rw [foldExpr_not]
    exact normal_foldNot ih
  | desc x ih =>
    rw [foldExpr_desc]
    exact .desc ih
  | agg op x ih =>
    rw [foldExpr_agg]
    exact .agg ih
  | aliased name x ih =>
    rw [foldExpr_aliased]
    exact .aliased ih
  | col n => exact .col n
  | litInt v => exact .litInt v
  | litFloat v => exact .litFloat v
  | litStr s => exact .litStr s
  | litBool b => exact .litBool b

/-- Folding twice is folding once. -/
theorem foldExpr_foldExpr (e : ExprNode F) : foldExpr (foldExpr e) = foldExpr e :=
  (foldExpr_of_normal (normal_foldExpr e)).1

/-- A chain is rebuilt from the leaves of its folded sides. -/
theorem foldExpr_chain (isAnd : Bool) (a b : ExprNode F) :
    foldExpr (connect isAnd a b) = rebuildChain isAnd (spine isAnd (foldExpr a) ++ spine isAnd (foldExpr b)) := by
  rw [foldExpr_connect, flattenBoolChain_connect, (foldExpr_of_normal (normal_foldExpr a)).2,
    (foldExpr_of_normal (normal_foldExpr b)).2]

end Karac.Runtime.Lazy
