import Mathlib

/-! Trees of files. A file's or a directory's parents are directories; writing makes those that are missing, and
turns no file into a directory or back. -/

namespace Karac.Lib

inductive FileNode (Content : Type*)
  | file (content : Content)
  | dir
  deriving DecidableEq

variable {Name Content : Type*} [DecidableEq Name]

/-- What is at the paths from the root of the tree, the latest first. The root is a directory, and not listed. -/
structure FileTree (Name Content : Type*) [DecidableEq Name] where
  nodes : List (List Name × FileNode Content)
  dir_of_prefix : ∀ {p q : List Name} {node : FileNode Content}, nodes.lookup p = some node → q ≠ [] → q <+: p → q ≠ p →
    nodes.lookup q = some .dir

namespace FileTree

def empty : FileTree Name Content := ⟨[], fun h => by cases h⟩

def get (t : FileTree Name Content) (p : List Name) : Option (FileNode Content) := t.nodes.lookup p

variable {t t' : FileTree Name Content} {p q : List Name} {node node' : FileNode Content}

@[simp] theorem get_empty : (empty : FileTree Name Content).get p = none := rfl

theorem get_prefix (h : t.get p = some node) (hq : q ≠ []) (hpre : q <+: p) (hne : q ≠ p) : t.get q = some .dir :=
  t.dir_of_prefix h hq hpre hne

theorem mem_nodes (h : t.get p = some node) : (p, node) ∈ t.nodes := by
  obtain ⟨before, after, hnodes, -⟩ := List.lookup_eq_some_iff.mp h
  simp [hnodes]

/-- What writing a node puts at a path on its way. -/
def nodeAt (p : List Name) (node : FileNode Content) (q : List Name) : FileNode Content := if q = p then node else .dir

def onWay (p : List Name) (node : FileNode Content) (q : List Name) : Option (FileNode Content) :=
  if q ≠ [] ∧ q <+: p then some (nodeAt p node q) else none

def plan (p : List Name) (node : FileNode Content) : List (List Name × FileNode Content) :=
  (p.inits.filter (· ≠ [])).map fun q => (q, nodeAt p node q)

theorem lookup_plan : (plan p node).lookup q = onWay p node q := by
  have hmem : q ∈ p.inits.filter (· ≠ []) ↔ q ≠ [] ∧ q <+: p := by simp [and_comm]
  unfold plan onWay
  split_ifs with h
  · exact List.lookup_graph _ (hmem.mpr h)
  · rw [List.lookup_eq_none_iff]
    intro e he
    obtain ⟨x, hx, rfl⟩ := List.mem_map.mp he
    rw [bne_iff_ne]
    rintro rfl
    exact h (hmem.mp hx)

/-- A file may be written over a file, and a directory made where one is. -/
def fits : Option (FileNode Content) → FileNode Content → Bool
  | none, _ => true
  | some .dir, .dir => true
  | some (.file _), .file _ => true
  | _, _ => false

theorem fits_dir {old : FileNode Content} (h : fits (some old) node = true) : old = .dir ↔ node = .dir := by
  cases old <;> cases node <;> simp_all [fits]

theorem onWay_of_initial (hq : q ≠ []) (hpre : q <+: p) : onWay p node q = some (nodeAt p node q) :=
  if_pos ⟨hq, hpre⟩

theorem plan_keeps_prefixes (hfits : ∀ q node', onWay p node q = some node' → fits (t.get q) node' = true) {r : List Name}
    {found : FileNode Content} (h : (plan p node ++ t.nodes).lookup r = some found) (hq : q ≠ []) (hpre : q <+: r)
    (hne : q ≠ r) : (plan p node ++ t.nodes).lookup q = some .dir := by
  have hr : r ≠ [] := fun hnil => hq (List.prefix_nil.mp (hnil ▸ hpre))
  rw [List.lookup_append, lookup_plan] at h ⊢
  by_cases hon : r <+: p
  · have hqp : q ≠ p := fun heq => hne (List.IsPrefix.eq_of_length_le hpre (heq ▸ hon.length_le))
    rw [onWay_of_initial hq (hpre.trans hon), nodeAt, if_neg hqp]
    rfl
  · rw [onWay, if_neg (fun hboth => hon hboth.2), Option.none_or] at h
    have hdir : t.get q = some .dir := t.dir_of_prefix h hq hpre hne
    cases hway : onWay p node q with
    | none => exact hdir
    | some node' =>
      have hok := hfits q node' hway
      rw [hdir] at hok
      rw [(fits_dir hok).mp rfl]
      rfl

/-- Writes a node and makes the directories on its way. -/
def put (t : FileTree Name Content) (p : List Name) (node : FileNode Content) : Option (FileTree Name Content) :=
  if h : ∀ e ∈ plan p node, fits (t.get e.1) e.2 = true then
    some ⟨plan p node ++ t.nodes, plan_keeps_prefixes fun q node' hway => by
      rw [← lookup_plan, List.lookup_eq_some_iff] at hway
      obtain ⟨_, _, heq, _⟩ := hway
      exact h (q, node') (by simp [heq])⟩
  else none

theorem get_put (h : t.put p node = some t') (q : List Name) : t'.get q = (onWay p node q).or (t.get q) := by
  unfold put at h
  split_ifs at h with hfits
  obtain rfl := Option.some.inj h
  exact List.lookup_append.trans (by rw [lookup_plan]; rfl)

theorem fits_of_put (h : t.put p node = some t') (hway : onWay p node q = some node') : fits (t.get q) node' = true := by
  unfold put at h
  split_ifs at h with hfits
  rw [← lookup_plan, List.lookup_eq_some_iff] at hway
  obtain ⟨_, _, heq, _⟩ := hway
  exact hfits (q, node') (by simp [heq])

theorem put_of_fits (h : ∀ q node', onWay p node q = some node' → fits (t.get q) node' = true) :
    ∃ t', t.put p node = some t' := by
  refine ⟨_, dif_pos fun e he => ?_⟩
  obtain ⟨q, hq, rfl⟩ := List.mem_map.mp he
  have hmem : q <+: p ∧ q ≠ [] := by simpa using List.mem_filter.mp hq
  exact h q _ (onWay_of_initial hmem.2 hmem.1)

/-- A directory stays one. -/
theorem put_dir (h : t.put p node = some t') (hdir : t.get q = some .dir) : t'.get q = some .dir := by
  rw [get_put h]
  cases hway : onWay p node q with
  | none => exact hdir
  | some node' =>
    have hfits := fits_of_put h hway
    rw [hdir] at hfits
    rw [(fits_dir hfits).mp rfl]
    rfl

/-- One tree has the other's nodes. -/
def Part (f t : FileTree Name Content) : Prop := ∀ q node, f.get q = some node → t.get q = some node

theorem part_empty : Part empty t := fun q node h => by cases h

variable {f f' : FileTree Name Content}

/-- What fits in a tree fits in a part of it. -/
theorem put_part (hpart : Part f t) (h : t.put p node = some t') : ∃ f', f.put p node = some f' ∧ Part f' t' := by
  have hfits : ∀ q node', onWay p node q = some node' → fits (f.get q) node' = true := by
    intro q node' hway
    cases hget : f.get q with
    | none => rfl
    | some old =>
      rw [← hpart q old hget]
      exact fits_of_put h hway
  obtain ⟨f', hf'⟩ := put_of_fits hfits
  refine ⟨f', hf', fun q found hfound => ?_⟩
  rw [get_put hf'] at hfound
  rw [get_put h]
  cases hway : onWay p node q with
  | none =>
    rw [hway] at hfound
    exact hpart q found hfound
  | some node' =>
    rw [hway] at hfound
    exact hfound

/-! Many nodes. -/

def putAll : List (List Name × FileNode Content) → FileTree Name Content → Option (FileTree Name Content)
  | [], t => some t
  | (p, node) :: entries, t => (t.put p node).bind (putAll entries)

variable {entries : List (List Name × FileNode Content)}

theorem putAll_cons (h : putAll ((p, node) :: entries) t = some t') :
    ∃ mid, t.put p node = some mid ∧ putAll entries mid = some t' :=
  Option.bind_eq_some_iff.mp h

/-- The paths that the entries write, with those of the directories on their way. -/
def Covers (entries : List (List Name × FileNode Content)) (q : List Name) : Prop := q ≠ [] ∧ ∃ e ∈ entries, q <+: e.1

theorem not_onWay (h : ¬Covers ((p, node) :: entries) q) : onWay p node q = none :=
  if_neg fun hboth => h ⟨hboth.1, (p, node), List.mem_cons_self, hboth.2⟩

omit [DecidableEq Name] in
theorem Covers.tail (h : Covers entries q) (e : List Name × FileNode Content) : Covers (e :: entries) q :=
  ⟨h.1, h.2.imp fun _ hx => ⟨List.mem_cons_of_mem _ hx.1, hx.2⟩⟩

theorem get_putAll_of_not_covers (h : putAll entries t = some t') (hq : ¬Covers entries q) : t'.get q = t.get q := by
  induction entries generalizing t with
  | nil => exact congrArg (get · q) (Option.some.inj h).symm
  | cons e entries ih =>
    obtain ⟨mid, hmid, hrest⟩ := putAll_cons h
    rw [ih hrest fun hcov => hq (hcov.tail e), get_put hmid, not_onWay hq, Option.none_or]

theorem putAll_dir (h : putAll entries t = some t') (hdir : t.get q = some .dir) : t'.get q = some .dir := by
  induction entries generalizing t with
  | nil => exact (congrArg (get · q) (Option.some.inj h)).symm.trans hdir
  | cons e entries ih =>
    obtain ⟨mid, hmid, hrest⟩ := putAll_cons h
    exact ih hrest (put_dir hmid hdir)

theorem putAll_part (hpart : Part f t) (h : putAll entries t = some t') : ∃ f', putAll entries f = some f' ∧ Part f' t' := by
  induction entries generalizing t f with
  | nil =>
    obtain rfl := Option.some.inj h
    exact ⟨f, rfl, hpart⟩
  | cons e entries ih =>
    obtain ⟨mid, hmid, hrest⟩ := putAll_cons h
    obtain ⟨fmid, hfmid, hmidpart⟩ := put_part hpart hmid
    obtain ⟨f', hf', hpart'⟩ := ih hmidpart hrest
    exact ⟨f', (congrArg (Option.bind · _) hfmid).trans hf', hpart'⟩

theorem put_ne_none (h : t.put p node = some t') (hq : t.get q ≠ none) : t'.get q ≠ none := by
  rw [get_put h, Ne, Option.or_eq_none_iff]
  exact fun hboth => hq hboth.2

theorem putAll_ne_none (h : putAll entries t = some t') (hq : t.get q ≠ none) : t'.get q ≠ none := by
  induction entries generalizing t with
  | nil => exact Option.some.inj h ▸ hq
  | cons e entries ih =>
    obtain ⟨mid, hmid, hrest⟩ := putAll_cons h
    exact ih hrest (put_ne_none hmid hq)

theorem get_putAll_of_covers (h : putAll entries t = some t') (hq : Covers entries q) : t'.get q ≠ none := by
  induction entries generalizing t with
  | nil => exact absurd hq.2 (by simp)
  | cons e entries ih =>
    obtain ⟨mid, hmid, hrest⟩ := putAll_cons h
    by_cases hcov : Covers entries q
    · exact ih hrest hcov
    · obtain ⟨hne, x, hx, hpre⟩ := hq
      obtain rfl | hx := List.mem_cons.mp hx
      · refine putAll_ne_none hrest ?_
        rw [get_put hmid, onWay_of_initial hne hpre]
        exact Option.some_ne_none _
      · exact absurd ⟨hne, x, hx, hpre⟩ hcov

/-- Written into an empty tree, the entries give what they cover of any tree they were written into. -/
theorem putAll_empty (h : putAll entries t = some t') :
    ∃ f, putAll entries empty = some f ∧ (∀ q, Covers entries q → f.get q = t'.get q) ∧
      ∀ q, ¬Covers entries q → f.get q = none := by
  obtain ⟨f, hf, hpart⟩ := putAll_part part_empty h
  refine ⟨f, hf, fun q hcov => ?_, fun q hcov => get_putAll_of_not_covers hf hcov⟩
  obtain ⟨found, hfound⟩ := Option.ne_none_iff_exists'.mp (get_putAll_of_covers hf hcov)
  rw [hfound, hpart q found hfound]

end FileTree

end Karac.Lib
