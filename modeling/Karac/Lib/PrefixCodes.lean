import Mathlib

/-! Codes that tell where they end. A value is read off the front of a list, and what a stream of such
values and a rest holds is determined by the stream. -/

namespace Karac.Lib

/-- A code on lists of symbols, with its laws: what was encoded is read back whatever follows, and what is
read is an encoding at the front. -/
structure PrefixCodec (α β : Type*) where
  Valid : α → Prop
  encode : α → List β
  decode : List β → Option (α × List β)
  decode_encode : ∀ a rest, Valid a → decode (encode a ++ rest) = some (a, rest)
  encode_decode : ∀ bs a rest, decode bs = some (a, rest) → Valid a ∧ bs = encode a ++ rest

namespace PrefixCodec

variable {α β : Type*} (c : PrefixCodec α β) {a b : α} {as bs : List α} {x y : List β}

theorem prefix_free (ha : c.Valid a) (hb : c.Valid b) (h : c.encode a ++ x = c.encode b ++ y) : a = b ∧ x = y := by
  have hread := c.decode_encode a x ha
  rw [h, c.decode_encode b y hb] at hread
  obtain ⟨rfl, rfl⟩ := Prod.mk.inj (Option.some.inj hread)
  exact ⟨rfl, rfl⟩

def encodeAll (as : List α) : List β := as.flatMap c.encode

@[simp] theorem encodeAll_nil : c.encodeAll [] = [] := rfl

@[simp] theorem encodeAll_cons : c.encodeAll (a :: as) = c.encode a ++ c.encodeAll as := rfl

@[simp] theorem encodeAll_append : c.encodeAll (as ++ bs) = c.encodeAll as ++ c.encodeAll bs := List.flatMap_append

theorem encodeAll_concat (as : List α) (a : α) (x : List β) :
    c.encodeAll (as ++ [a]) ++ x = c.encodeAll as ++ (c.encode a ++ x) := by
  simp

/-- Of two readings of one stream, one goes on where the other ends. -/
theorem encodeAll_split (has : ∀ a ∈ as, c.Valid a) (hbs : ∀ b ∈ bs, c.Valid b)
    (h : c.encodeAll as ++ x = c.encodeAll bs ++ y) :
    (∃ more, bs = as ++ more ∧ x = c.encodeAll more ++ y) ∨ ∃ more, as = bs ++ more ∧ y = c.encodeAll more ++ x := by
  induction as generalizing bs with
  | nil => exact .inl ⟨bs, rfl, h⟩
  | cons a as ih =>
    cases bs with
    | nil => exact .inr ⟨a :: as, rfl, h.symm⟩
    | cons b bs =>
      rw [encodeAll_cons, encodeAll_cons, List.append_assoc, List.append_assoc] at h
      obtain ⟨rfl, htail⟩ := c.prefix_free (has a (by simp)) (hbs b (by simp)) h
      obtain ⟨more, rfl, hx⟩ | ⟨more, rfl, hy⟩ :=
        ih (fun a ha => has a (by simp [ha])) (fun b hb => hbs b (by simp [hb])) htail
      · exact .inl ⟨more, rfl, hx⟩
      · exact .inr ⟨more, rfl, hy⟩

end PrefixCodec
end Karac.Lib

/-! Trees written without brackets: each symbol before its arguments, its number of arguments fixed. Where the symbols
are spelled by a prefix code such a text can be read in one way only. -/

namespace Karac.Lib

inductive RoseTree (σ : Type*)
  | node (s : σ) (args : List (RoseTree σ))

namespace RoseTree

variable {σ : Type*}

/-- Induction over trees, with the arguments given by membership. -/
@[elab_as_elim]
theorem ind {P : RoseTree σ → Prop} (node : ∀ s args, (∀ t ∈ args, P t) → P (.node s args)) (t : RoseTree σ) : P t :=
  @RoseTree.rec σ P (fun ts => ∀ t ∈ ts, P t) node (by simp) (by simp +contextual) t

section Text

variable {β : Type*} (code : σ → List β)

mutual

def text : RoseTree σ → List β
  | .node s args => code s ++ texts args

def texts : List (RoseTree σ) → List β
  | [] => []
  | t :: ts => t.text ++ texts ts

end

theorem texts_eq_flatMap (ts : List (RoseTree σ)) : texts code ts = ts.flatMap (text code) := by
  induction ts with
  | nil => rfl
  | cons t ts ih => rw [texts, ih, List.flatMap_cons]

end Text

variable (ok : σ → Prop) (rank : σ → ℕ)

/-- The symbols are allowed ones, each with its number of arguments. -/
def Ranked : RoseTree σ → Prop
  | .node s args => ok s ∧ args.length = rank s ∧ ∀ t ∈ args, t.Ranked

variable {ok rank} {β : Type*} {code : σ → List β}

/-- No code of an allowed symbol is the start of another's. -/
def PrefixCode (ok : σ → Prop) (code : σ → List β) : Prop :=
  ∀ s s' rest rest', ok s → ok s' → code s ++ rest = code s' ++ rest' → s = s'

theorem texts_inj {ts us : List (RoseTree σ)} {rest rest' : List β} (hlen : ts.length = us.length)
    (hts : ∀ t ∈ ts, ∀ u rest rest', u ∈ us → t.text code ++ rest = u.text code ++ rest' → t = u ∧ rest = rest')
    (h : texts code ts ++ rest = texts code us ++ rest') : ts = us ∧ rest = rest' := by
  induction ts generalizing us with
  | nil =>
    obtain rfl : us = [] := List.length_eq_zero_iff.mp hlen.symm
    exact ⟨rfl, h⟩
  | cons t ts ih =>
    cases us with
    | nil => cases hlen
    | cons u us =>
      rw [texts, texts, List.append_assoc, List.append_assoc] at h
      obtain ⟨rfl, hrest⟩ := hts t List.mem_cons_self u _ _ List.mem_cons_self h
      obtain ⟨rfl, hrest'⟩ := ih (Nat.succ.inj hlen)
        (fun x hx y r r' hy => hts x (List.mem_cons_of_mem t hx) y r r' (List.mem_cons_of_mem t hy)) hrest
      exact ⟨rfl, hrest'⟩

/-- What starts with the text of a tree starts with the text of no other. -/
theorem text_inj (hcode : PrefixCode ok code) {t u : RoseTree σ} {rest rest' : List β} (ht : t.Ranked ok rank)
    (hu : u.Ranked ok rank) (h : t.text code ++ rest = u.text code ++ rest') : t = u ∧ rest = rest' := by
  induction t using RoseTree.ind generalizing u rest rest' with
  | node s args ih =>
    obtain ⟨s', args'⟩ := u
    simp only [Ranked] at ht hu
    obtain ⟨hs, hlen, hargs⟩ := ht
    obtain ⟨hs', hlen', hargs'⟩ := hu
    rw [text, text, List.append_assoc, List.append_assoc] at h
    obtain rfl := hcode s s' _ _ hs hs' h
    obtain ⟨rfl, hrest⟩ := texts_inj (hlen.trans hlen'.symm)
      (fun t ht u r r' hu => ih t ht (hargs t ht) (hargs' u hu)) (List.append_cancel_left h)
    exact ⟨rfl, hrest⟩

end RoseTree

/-! Words put together with a separator. -/

/-- The separator between the words is between the words of the words. -/
theorem intercalate_map_intercalate (sep : String) {parts : List (List String)} (h : ∀ p ∈ parts, p ≠ []) :
    sep.intercalate (parts.map sep.intercalate) = sep.intercalate parts.flatten := by
  induction parts with
  | nil => rfl
  | cons p parts ih =>
    have hp : p ≠ [] := h p List.mem_cons_self
    have hparts : ∀ q ∈ parts, q ≠ [] := fun q hq => h q (List.mem_cons_of_mem p hq)
    cases parts with
    | nil => simp
    | cons q parts =>
      have hflat : (q :: parts).flatten ≠ [] := by
        rw [List.flatten_cons]
        exact List.append_ne_nil_of_left_ne_nil (hparts q List.mem_cons_self) _
      rw [List.map_cons, String.intercalate_cons_of_ne_nil (by simp), ih hparts, List.flatten_cons (l := p),
        String.intercalate_append_of_ne_nil hp hflat]

/-- Words without the separator can be told apart again. -/
theorem intercalate_inj {c : Char} {ws vs : List String} (hws : ∀ w ∈ ws, c ∉ w.toList) (hvs : ∀ v ∈ vs, c ∉ v.toList)
    (hws' : ws ≠ []) (hvs' : vs ≠ [])
    (h : (String.singleton c).intercalate ws = (String.singleton c).intercalate vs) : ws = vs := by
  have hsplit : ∀ us : List String, (∀ u ∈ us, c ∉ u.toList) → us ≠ [] →
      ((String.singleton c).intercalate us).toList.splitOn c = us.map String.toList := by
    intro us hus hne
    rw [String.toList_intercalate, String.toList_singleton]
    exact List.splitOn_intercalate c (by simpa using hus) (by simpa using hne)
  have hmap : ws.map String.toList = vs.map String.toList := by rw [← hsplit ws hws hws', h, hsplit vs hvs hvs']
  exact List.map_injective_iff.mpr (fun _ _ => String.toList_inj.mp) hmap

end Karac.Lib
