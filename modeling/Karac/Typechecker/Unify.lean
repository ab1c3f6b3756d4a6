import Karac.Typechecker.Compatible

/-! Type inference: `unify_types` and the resolution of metavariables. -/

namespace Karac.Typechecker

/-- Both substitutions. -/
structure Subst where
  types : ℕ → Option Ty
  consts : ℕ → Option ConstArg

def Subst.empty : Subst := ⟨fun _ => none, fun _ => none⟩

def Subst.insert (s : Subst) (id : ℕ) (t : Ty) : Subst := { s with types := Function.update s.types id (some t) }

/-- Why a call has no result: the recursion goes on past the fuel, or an occurs check stops it. -/
inductive Halt
  | fuel
  | occurs

abbrev ConstSubst := ℕ → Option ConstArg

/-- The names of the metavariables that stand for a parameter. -/
structure MetavarNames where
  types : ℕ → Option String
  consts : ℕ → Option String

def resolveConstArg (names : MetavarNames) : ℕ → ConstSubst → ConstArg → Option ConstArg
  | 0, _, _ => none
  | n + 1, κ, .constVar id =>
    match κ id with
    | some c => resolveConstArg names n κ c
    | none => some ((names.consts id).elim (.constVar id) .constParam)
  | _ + 1, _, c => some c

def resolvedDim : ConstArg → DimArg
  | .dynamicDim => .dynamic
  | c => .const c

/-- The dims a bound splice stands for. -/
def spliceDims (id : ℕ) : Ty → List DimArg
  | .shape inner => inner
  | _ => [.spliceVar id]

def resolveTypeVars (names : MetavarNames) : ℕ → Subst → Ty → Option Ty
  | 0, _, _ => none
  | n + 1, s, t =>
    match t with
    | .typeVar id =>
      match s.types id with
      | some resolved => resolveTypeVars names n s resolved
      | none => some ((names.types id).elim (.typeVar id) .typeParam)
    | .tuple es => (es.mapM (resolveTypeVars names n s)).map .tuple
    | .array element size => do
      return .array (← resolveTypeVars names n s element) (← resolveConstArg names n s.consts size)
    | .shape dims =>
      let dim (d : DimArg) : Option (List DimArg) :=
        match d with
        | .const c => (resolveConstArg names n s.consts c).map fun c => [resolvedDim c]
        | .dynamic => some [.dynamic]
        | .splice name => some [.splice name]
        | .spliceVar id =>
          match s.types id with
          | some bound => (resolveTypeVars names n s bound).map (spliceDims id)
          | none => some [(names.types id).elim (.spliceVar id) .splice]
      (dims.mapM dim).map fun ds => .shape ds.flatten
    | .slice element mutable => (resolveTypeVars names n s element).map (.slice · mutable)
    | .ref inner => (resolveTypeVars names n s inner).map .ref
    | .mutRef inner => (resolveTypeVars names n s inner).map .mutRef
    | .weak inner => (resolveTypeVars names n s inner).map .weak
    | .pointer isMut inner => (resolveTypeVars names n s inner).map (.pointer isMut)
    | .named name args => (args.mapM (resolveTypeVars names n s)).map (.named name)
    | .function params ret => do
      return .function (← params.mapM (resolveTypeVars names n s)) (← resolveTypeVars names n s ret)
    | .onceFunction params ret => do
      return .onceFunction (← params.mapM (resolveTypeVars names n s)) (← resolveTypeVars names n s ret)
    | t => some t

def resolveTypeVarTop : ℕ → Subst → Ty → Except Halt Ty
  | 0, _, _ => .error .fuel
  | n + 1, s, .typeVar id =>
    match s.types id with
    | some resolved => resolveTypeVarTop n s resolved
    | none => .ok (.typeVar id)
  | _ + 1, _, t => .ok t

def resolveConstVarTop : ℕ → ConstSubst → ConstArg → Except Halt ConstArg
  | 0, _, _ => .error .fuel
  | n + 1, κ, .constVar id =>
    match κ id with
    | some inner => resolveConstVarTop n κ inner
    | none => .ok (.constVar id)
  | _ + 1, _, c => .ok c

abbrev ConstResult := Except Halt (Bool × ConstSubst)

def unifyConstVar (top : ConstSubst → ConstArg → Except Halt ConstArg)
    (unify : ConstSubst → ConstArg → ConstArg → ConstResult) (κ : ConstSubst) (id : ℕ) (other : ConstArg) :
    ConstResult := do
  let otherResolved ← top κ other
  match κ id with
  | none =>
    -- a variable is not bound to itself through an alias chain
    if otherResolved = .constVar id then return (true, κ)
    else return (true, Function.update κ id (some otherResolved))
  | some .dynamicDim =>
    if otherResolved = .dynamicDim then return (true, κ)
    else return (true, Function.update κ id (some otherResolved))
  | some bound => unify κ bound otherResolved

/-- Past the first two arms neither side is a metavariable, so resolving their tops changes nothing. -/
def unifyConstArgs : ℕ → ConstSubst → ConstArg → ConstArg → ConstResult
  | 0, _, _, _ => .error .fuel
  | n + 1, κ, a, b =>
    match a with
    | .constVar id =>
      if b = .constVar id then .ok (true, κ) else unifyConstVar (resolveConstVarTop n) (unifyConstArgs n) κ id b
    | _ =>
      match b with
      | .constVar id => unifyConstVar (resolveConstVarTop n) (unifyConstArgs n) κ id a
      | _ => .ok (a = .dynamicDim ∨ b = .dynamicDim ∨ a = b, κ)

abbrev Result := Except Halt (Bool × Subst)

/-- What a call of `unify_types` goes by: how a metavariable is bound, how a chain of them is followed, and the
recursive calls. -/
structure Calls where
  bind : Subst → ℕ → Ty → Except Halt Subst
  top : Subst → Ty → Except Halt Ty
  constArgs : ConstSubst → ConstArg → ConstArg → ConstResult
  types : Subst → Ty → Ty → Result

/-- `iter().zip().all()`: the pairs are unified in order up to the first that fails. -/
def allPairs (unify : Subst → Ty → Ty → Result) : Subst → List Ty → List Ty → Result
  | s, x :: xs, y :: ys => do
    let (unified, s) ← unify s x y
    if unified then allPairs unify s xs ys else return (false, s)
  | s, _, _ => .ok (true, s)

def DimArg.toConst : DimArg → ConstArg
  | .const c => c
  | _ => .dynamicDim

def DimArg.isSplice : DimArg → Bool
  | .splice _ => true
  | .spliceVar _ => true
  | _ => false

def splicePos (dims : List DimArg) : Option ℕ := dims.findIdx? DimArg.isSplice

def Calls.dim (calls : Calls) (s : Subst) (a b : DimArg) : Result := do
  let (unified, κ) ← calls.constArgs s.consts a.toConst b.toConst
  return (unified, { s with consts := κ })

def allDims (calls : Calls) : Subst → List DimArg → List DimArg → Result
  | s, x :: xs, y :: ys => do
    let (unified, s) ← calls.dim s x y
    if unified then allDims calls s xs ys else return (false, s)
  | s, _, _ => .ok (true, s)

/-- `unify_spliced`: the side with the splice at `pos` against a side without one. -/
def unifySpliced (calls : Calls) (s : Subst) (spliced : List DimArg) (pos : ℕ) (concrete : List DimArg) : Result :=
  let pre := spliced.take pos
  let post := spliced.drop (pos + 1)
  if concrete.length < pre.length + post.length then .ok (false, s)
  else do
    let midEnd := concrete.length - post.length
    let (unified, s) ← allDims calls s pre (concrete.take pos)
    if !unified then return (false, s)
    let (unified, s) ← allDims calls s post (concrete.drop midEnd)
    if !unified then return (false, s)
    match spliced[pos]? with
    | some (.spliceVar id) => calls.types s (.typeVar id) (.shape ((concrete.take midEnd).drop pos))
    | _ => return (true, s)

/-- Two splices in one place. -/
def unifySplices (calls : Calls) (s : Subst) (a b : DimArg) : Result :=
  match a, b with
  | .splice m, .splice n => .ok (m = n, s)
  | .spliceVar i, .spliceVar j => .ok (i = j, s)
  | .spliceVar id, .splice name => calls.types s (.typeVar id) (.shape [.splice name])
  | .splice name, .spliceVar id => calls.types s (.typeVar id) (.shape [.splice name])
  | _, _ => .ok (false, s)

/-- The pairs of two shapes that both have their splice `pos` places further on. -/
def bothSpliced (calls : Calls) : ℕ → Subst → List DimArg → List DimArg → Result
  | 0, s, x :: xs, y :: ys => do
    let (unified, s) ← unifySplices calls s x y
    if unified then allDims calls s xs ys else return (false, s)
  | pos + 1, s, x :: xs, y :: ys => do
    let (unified, s) ← calls.dim s x y
    if unified then bothSpliced calls pos s xs ys else return (false, s)
  | _, s, _, _ => .ok (true, s)

def unifyShapes (calls : Calls) (s : Subst) (x y : List DimArg) : Result :=
  match splicePos x, splicePos y with
  | none, none => if x.length = y.length then allDims calls s x y else .ok (false, s)
  | some i, none => unifySpliced calls s x i y
  | none, some j => unifySpliced calls s y j x
  | some i, some j => if i ≠ j ∨ x.length ≠ y.length then .ok (false, s) else bothSpliced calls i s x y

def unifyTypeVar (calls : Calls) (s : Subst) (id : ℕ) (other : Ty) : Result := do
  let other ← calls.top s other
  match s.types id with
  | none => return (true, ← calls.bind s id other)
  | some cur =>
    let cur ← calls.top s cur
    if cur = .never ∧ other ≠ .never ∧ other ≠ .error then return (true, ← calls.bind s id other)
    else if other = .never then return (true, s)
    else calls.types s cur other

def unifySignatures (calls : Calls) (s : Subst) (xp : List Ty) (xr : Ty) (yp : List Ty) (yr : Ty) : Result := do
  let (unified, s) ← allPairs calls.types s xp yp
  if unified then calls.types s xr yr else return (false, s)

/-- The arms for two types neither of which is a metavariable or an error. -/
def unifyStructural (table : StdlibVariance) (calls : Calls) (s : Subst) (a b : Ty) : Result :=
  let leaf : Result := .ok (typesCompatible table a b, s)
  match a with
  | .tuple xs =>
    match b with
    | .tuple ys => if xs.length = ys.length then allPairs calls.types s xs ys else leaf
    | _ => leaf
  | .named m xs =>
    match b with
    | .named n ys => if m = n ∧ xs.length = ys.length then allPairs calls.types s xs ys else leaf
    | _ => leaf
  | .ref x =>
    match b with
    | .ref y => calls.types s x y
    | .mutRef _ => leaf
    | .weak _ => leaf
    | y => calls.types s x y
  | .mutRef x =>
    match b with
    | .mutRef y => calls.types s x y
    | .ref _ => leaf
    | .weak _ => leaf
    | y => calls.types s x y
  | .weak x =>
    match b with
    | .weak y => calls.types s x y
    | _ => leaf
  | .pointer xm x =>
    match b with
    | .pointer ym y => if xm = ym then calls.types s x y else leaf
    | _ => leaf
  | .array x xn =>
    match b with
    | .array y yn => do
      let (unified, κ) ← calls.constArgs s.consts xn yn
      if unified then calls.types { s with consts := κ } x y else return (false, { s with consts := κ })
    | _ => leaf
  | .shape xs =>
    match b with
    | .shape ys => unifyShapes calls s xs ys
    | _ => leaf
  | .slice x xm =>
    match b with
    | .slice y ym => if xm = ym then calls.types s x y else leaf
    | _ => leaf
  | .function xp xr =>
    match b with
    | .function yp yr => if xp.length = yp.length then unifySignatures calls s xp xr yp yr else leaf
    | .onceFunction yp yr => if xp.length = yp.length then unifySignatures calls s xp xr yp yr else leaf
    | _ => leaf
  | .onceFunction xp xr =>
    match b with
    | .function yp yr => if xp.length = yp.length then unifySignatures calls s xp xr yp yr else leaf
    | .onceFunction yp yr => if xp.length = yp.length then unifySignatures calls s xp xr yp yr else leaf
    | _ => leaf
  | _ => leaf

/-- Where neither side is a metavariable, resolving their tops changes nothing. -/
def unifyBody (table : StdlibVariance) (calls : Calls) (s : Subst) (a b : Ty) : Result :=
  match a with
  | .typeVar id => if b = .typeVar id then .ok (true, s) else unifyTypeVar calls s id b
  | _ =>
    match b with
    | .typeVar id => unifyTypeVar calls s id a
    | _ => if a = .error ∨ b = .error then .ok (true, s) else unifyStructural table calls s a b

def unifyTypesWith (table : StdlibVariance) (bind : Subst → ℕ → Ty → Except Halt Subst) : ℕ → Subst → Ty → Ty → Result
  | 0, _, _, _ => .error .fuel
  | n + 1, s, a, b =>
    unifyBody table ⟨bind, resolveTypeVarTop n, unifyConstArgs n, unifyTypesWith table bind n⟩ s a b

/-- `unify_types` with `n` levels of recursion. -/
def unifyTypes (table : StdlibVariance) : ℕ → Subst → Ty → Ty → Result :=
  unifyTypesWith table fun s id t => .ok (s.insert id t)

end Karac.Typechecker
