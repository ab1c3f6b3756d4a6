import Karac.Runtime.JsonHeap

/-! What a JSON tree in the heap reads as, and that its destructor frees what was allocated for it. -/

namespace Karac.Runtime.Json

open Karac.Lib BlockHeap

/-! The values of the claim's domain, and what is left of them. -/

/-- A 64-bit signed integer or a finite double, as `serde_json` represents them. -/
def Number.Valid : Number → Prop
  | .posInt n => n.toNat < 2 ^ 63
  | .negInt i => i.slt 0 = true
  | .float bits => isFinite bits = true

/-- The bytes of a Rust string. -/
def IsUtf8 (s : List UInt8) : Prop := ∃ cs : List Char, s = cs.flatMap String.utf8EncodeChar

mutual

/-- Strings are UTF-8, the keys of an object are distinct, and numbers are as above. -/
def Value.Valid : Value → Prop
  | .number n => n.Valid
  | .string s => IsUtf8 s
  | .array items => ValidItems items
  | .object entries => (entries.map Prod.fst).Nodup ∧ ValidEntries entries
  | _ => True

def ValidItems : List Value → Prop
  | [] => True
  | item :: items => item.Valid ∧ ValidItems items

def ValidEntries : List (List UInt8 × Value) → Prop
  | [] => True
  | (k, v) :: entries => (IsUtf8 k ∧ v.Valid) ∧ ValidEntries entries

end

mutual

/-- No key of the tree has a zero byte. -/
def Value.KeysPlain : Value → Prop
  | .array items => ItemsPlain items
  | .object entries => EntriesPlain entries
  | _ => True

def ItemsPlain : List Value → Prop
  | [] => True
  | item :: items => item.KeysPlain ∧ ItemsPlain items

def EntriesPlain : List (List UInt8 × Value) → Prop
  | [] => True
  | (k, v) :: entries => (0 ∉ k ∧ v.KeysPlain) ∧ EntriesPlain entries

end

/-- The object of some entries that are inserted one after another. -/
def inserted (map entries : List (List UInt8 × Value)) : List (List UInt8 × Value) :=
  entries.foldl (fun map e => mapInsert map e.1 e.2) map

mutual

/-- What comes back. -/
def Value.kept : Value → Value
  | .array items => .array (keptItems items)
  | .object entries => .object (inserted [] (keptEntries entries))
  | v => v

def keptItems : List Value → List Value
  | [] => []
  | item :: items => item.kept :: keptItems items

def keptEntries : List (List UInt8 × Value) → List (List UInt8 × Value)
  | [] => []
  | (k, v) :: entries => (cstringOf k, v.kept) :: keptEntries entries

end

mutual

def Value.height : Value → ℕ
  | .array items => heightItems items + 1
  | .object entries => heightEntries entries + 1
  | _ => 0

def heightItems : List Value → ℕ
  | [] => 0
  | item :: items => max item.height (heightItems items)

def heightEntries : List (List UInt8 × Value) → ℕ
  | [] => 0
  | (_, v) :: entries => max v.height (heightEntries entries)

end

/-! Trees in the heap. -/

/-- Between two heaps the tree of a value has been built: it reads as what is kept of the value and is freed whole,
wherever its blocks are as they were. -/
structure Built (v : Value) (h : Heap) (ptr : ℕ) (h' : Heap) : Prop where
  grown : Grown h h'
  nonnull : ptr ≠ 0
  reads : ∀ g : Heap, Same g h' (region h h') → ∀ fuel, v.height < fuel → karacToJsonValue g fuel ptr = some v.kept
  frees : ∀ g : Heap, Same g h' (region h h') → ∀ fuel, v.height < fuel →
    ∃ g', freeValue fuel g ptr = some g' ∧ Freed g (region h h') g'

structure ItemsBuilt (items : List Value) (h : Heap) (ptrs : List ℕ) (h' : Heap) : Prop where
  grown : Grown h h'
  length : ptrs.length = items.length
  reads : ∀ g : Heap, Same g h' (region h h') → ∀ fuel, heightItems items < fuel →
    (ptrs.mapM fun ptr => karacToJsonValue g fuel ptr) = some (keptItems items)
  frees : ∀ g : Heap, Same g h' (region h h') → ∀ fuel, heightItems items < fuel →
    ∃ g', (ptrs.foldlM (fun h ptr => freeValue fuel h ptr) g) = some g' ∧ Freed g (region h h') g'

/-- The keys and the values of an object are freed apart. -/
structure EntriesBuilt (entries : List (List UInt8 × Value)) (h : Heap) (pairs : List (ℕ × ℕ)) (h' : Heap)
    (keys vals : Set ℕ) : Prop where
  grown : Grown h h'
  length : pairs.length = entries.length
  region_eq : region h h' = keys ∪ vals
  disjoint : Disjoint keys vals
  reads : ∀ g : Heap, Same g h' (region h h') → ∀ fuel, heightEntries entries < fuel → ∀ map,
    (pairs.foldlM (fun map pair => (readKey g pair.1).bind fun key =>
      (karacToJsonValue g fuel pair.2).map fun value => mapInsert map key value) map) =
        some (inserted map (keptEntries entries))
  freesKeys : ∀ g : Heap, Same g h' keys → ∃ g', (pairs.map Prod.fst).foldlM freeKey g = some g' ∧ Freed g keys g'
  freesVals : ∀ g : Heap, Same g h' vals → ∀ fuel, heightEntries entries < fuel →
    ∃ g', ((pairs.map Prod.snd).foldlM (fun h ptr => freeValue fuel h ptr) g) = some g' ∧ Freed g vals g'

section

variable {h h' : Heap} {n : KaracJsonValue}

theorem region_node (hg : Grown h h') (b : Block) : region h (h'.alloc b).2 = region h h' ∪ {(h'.alloc b).1} := by
  rw [region_trans hg (grown_alloc h' b), region_alloc]

theorem node_at {g : Heap} {b : Block} (hg : Grown h h') (hs : Same g (h'.alloc b).2 (region h (h'.alloc b).2)) :
    g.blocks (h'.alloc b).1 = some b := by
  rw [hs _ (by rw [region_node hg]; exact Or.inr rfl), alloc_block]

theorem same_below {g : Heap} {b : Block} (hg : Grown h h') (hs : Same g (h'.alloc b).2 (region h (h'.alloc b).2)) :
    Same g h' (region h h') :=
  (hs.mono (by rw [region_node hg]; exact Set.subset_union_left)).of_grown (grown_alloc h' b)

theorem disjoint_node (b : Block) : Disjoint (region h h') {(h'.alloc b).1} := by
  rw [← region_alloc]
  exact disjoint_region

/-- A tree is built by its struct on top of what the struct points at. -/
theorem built_node {v : Value} (hg : Grown h h')
    (hreads : ∀ g : Heap, Same g h' (region h h') → ∀ fuel, v.height ≤ fuel →
      readNode g (fun item => karacToJsonValue g fuel item) n = some v.kept)
    (hfrees : ∀ g : Heap, Same g h' (region h h') → ∀ fuel, v.height ≤ fuel →
      ∃ g', freePayload (fun h item => freeValue fuel h item) g n = some g' ∧ Freed g (region h h') g') :
    Built v h (h'.alloc (.node n)).1 (h'.alloc (.node n)).2 where
  grown := hg.trans (grown_alloc _ _)
  nonnull := alloc_ne_null _ _
  reads g hs fuel hfuel := by
    obtain ⟨fuel, rfl⟩ : ∃ k, fuel = k + 1 := ⟨fuel - 1, by omega⟩
    rw [karacToJsonValue, if_neg (alloc_ne_null _ _), node_at hg hs]
    exact hreads g (same_below hg hs) fuel (by omega)
  frees g hs fuel hfuel := by
    obtain ⟨fuel, rfl⟩ : ∃ k, fuel = k + 1 := ⟨fuel - 1, by omega⟩
    obtain ⟨g', hpayload, hfreed⟩ := hfrees g (same_below hg hs) fuel (by omega)
    have hnode : g'.blocks (h'.alloc (.node n)).1 = some (.node n) := by
      rw [hfreed.kept _ (Set.disjoint_right.mp (disjoint_node _) rfl), node_at hg hs]
    obtain ⟨g'', hfree, hfreed'⟩ := exists_free hnode
    refine ⟨g'', ?_, by rw [region_node hg]; exact hfreed.trans hfreed'⟩
    rw [freeValue, if_neg (alloc_ne_null _ _), node_at hg hs]
    dsimp only
    rw [hpayload, Option.bind_some, hfree, Option.map_some]

/-- A struct that points at nothing. -/
theorem built_leaf {v : Value} (hread : ∀ g fuel, readNode g (fun item => karacToJsonValue g fuel item) n = some v.kept)
    (hfree : ∀ g fuel, freePayload (fun h item => freeValue fuel h item) g n = some g) (h : Heap) :
    Built v h (h.alloc (.node n)).1 (h.alloc (.node n)).2 :=
  built_node (Grown.refl h) (fun g _ fuel _ => hread g fuel)
    fun g _ fuel _ => ⟨g, hfree g fuel, by rw [region_self]; exact Freed.refl g⟩

end

/-! Strings and numbers. -/

theorem fromUtf8Lossy_of_isUtf8 {s : List UInt8} (hs : IsUtf8 s) : fromUtf8Lossy s = s := by
  obtain ⟨cs, rfl⟩ := hs
  exact fromUtf8Lossy_utf8 cs

theorem built_number {x : Number} (hx : x.Valid) (h : Heap) :
    Built (.number x) h (jsonValueToKarac (.number x) h).1 (jsonValueToKarac (.number x) h).2 := by
  cases x with
  | posInt n =>
    have hint : (Number.posInt n).asI64 = some n := if_pos hx
    have hback : Number.ofI64 n = .posInt n := by
      have hzero : (0 : BitVec 64).toInt = 0 := rfl
      have hlt : n.toNat < 2 ^ 63 := hx
      refine if_neg ?_
      rw [BitVec.slt_iff_toInt_lt, hzero, BitVec.toInt_eq_toNat_of_lt (by omega)]
      omega
    rw [jsonValueToKarac, hint]
    refine built_leaf (fun g fuel => ?_) (fun g fuel => rfl) h
    change some (Value.number (.ofI64 n)) = _
    rw [hback]
    rfl
  | negInt i =>
    have hback : Number.ofI64 i = .negInt i := if_pos hx
    rw [jsonValueToKarac]
    refine built_leaf (fun g fuel => ?_) (fun g fuel => rfl) h
    change some (Value.number (.ofI64 i)) = _
    rw [hback]
    rfl
  | float bits =>
    have hback : Number.fromF64 bits = some (.float bits) := if_pos hx
    rw [jsonValueToKarac]
    refine built_leaf (fun g fuel => ?_) (fun g fuel => rfl) h
    change some (((Number.fromF64 bits).map Value.number).getD .null) = _
    rw [hback]
    rfl

theorem built_string {s : List UInt8} (hs : IsUtf8 s) (h : Heap) :
    Built (.string s) h (jsonValueToKarac (.string s) h).1 (jsonValueToKarac (.string s) h).2 := by
  by_cases hempty : s = []
  · subst hempty
    exact built_leaf (fun g fuel => rfl) (fun g fuel => rfl) h
  · have hlen : 0 < s.length := List.length_pos_iff.mpr hempty
    have hbytes {g : Heap} (hsame : Same g (h.alloc (.bytes s)).2 (region h (h.alloc (.bytes s)).2)) :
        g.blocks (h.alloc (.bytes s)).1 = some (.bytes s) := node_at (Grown.refl h) hsame
    rw [jsonValueToKarac, if_neg (by simpa using hempty)]
    refine built_node (grown_alloc _ _) (fun g hsame fuel _ => ?_) (fun g hsame fuel _ => ?_)
    · change (readString g (h.alloc (.bytes s)).1 s.length).map Value.string = _
      rw [readString, if_neg (by simp [alloc_ne_null, hempty]), hbytes hsame]
      dsimp only
      rw [if_pos le_rfl, List.take_length, fromUtf8Lossy_of_isUtf8 hs]
      rfl
    · obtain ⟨g', hfree, hfreed⟩ := exists_free (hbytes hsame)
      refine ⟨g', ?_, by rw [region_alloc]; exact hfreed⟩
      rw [freePayload, if_pos ⟨rfl, alloc_ne_null h (.bytes s), hlen⟩, freeBytes, hfree, Option.bind_some]
      exact if_pos rfl

/-! Buffers of pointers. -/

section

variable {g h h' : Heap} {ptrs : List ℕ} {ptr len : ℕ}

theorem readPointers_eq (hb : g.blocks ptr = some (.pointers ptrs)) (hlen : ptrs.length = len) :
    readPointers g ptr len = some ptrs := by
  unfold readPointers
  split
  · rename_i hzero
    rw [List.length_eq_zero_iff.mp (hlen.trans hzero)]
  · rw [hb]
    dsimp only
    rw [if_pos hlen.ge, List.take_of_length_le hlen.le]

theorem freeVector_eq {freeItem : Heap → ℕ → Option Heap} {r : Set ℕ} (hb : g.blocks ptr = some (.pointers ptrs))
    (hlen : ptrs.length = len) (hout : ptr ∉ r) (hitems : ∃ g', ptrs.foldlM freeItem g = some g' ∧ Freed g r g') :
    ∃ g', freeVector freeItem g ptr len = some g' ∧ Freed g (r ∪ {ptr}) g' := by
  obtain ⟨g', hfold, hfreed⟩ := hitems
  obtain ⟨g'', hfree, hfreed'⟩ := exists_free ((hfreed.kept ptr hout).trans hb)
  refine ⟨g'', ?_, hfreed.trans hfreed'⟩
  rw [freeVector, ownedPointers, hb]
  dsimp only
  rw [if_pos hlen, Option.bind_some, hfold, Option.bind_some, freePointers, hfree, Option.map_some]

end

theorem built_array {items : List Value} {h h' : Heap} {ptrs : List ℕ} (hitems : itemsToKarac items h = (ptrs, h'))
    (hb : ItemsBuilt items h ptrs h') :
    Built (.array items) h (jsonValueToKarac (.array items) h).1 (jsonValueToKarac (.array items) h).2 := by
  by_cases hempty : items = []
  · subst hempty
    exact built_leaf (fun g fuel => rfl) (fun g fuel => rfl) h
  · have hlen : 0 < items.length := List.length_pos_iff.mpr hempty
    have hgrown : Grown h (h'.alloc (.pointers ptrs)).2 := hb.grown.trans (grown_alloc _ _)
    rw [jsonValueToKarac, if_neg (by simpa using hempty), hitems]
    refine built_node hgrown (fun g hs fuel hfuel => ?_) (fun g hs fuel hfuel => ?_)
    · change (readPointers g (h'.alloc (.pointers ptrs)).1 items.length).bind _ = _
      rw [readPointers_eq (node_at hb.grown hs) hb.length, Option.bind_some,
        hb.reads g (same_below hb.grown hs) fuel hfuel]
      rfl
    · have hvector := freeVector_eq (node_at hb.grown hs) hb.length
        (fun hin => Set.disjoint_left.mp (disjoint_node _) hin rfl) (hb.frees g (same_below hb.grown hs) fuel hfuel)
      obtain ⟨g', hfree, hfreed⟩ := hvector
      refine ⟨g', ?_, by rw [region_node hb.grown]; exact hfreed⟩
      have htag : KaracJsonTag.array.toU8 ≠ KaracJsonTag.string.toU8 := by decide
      rw [freePayload, if_neg fun hstring => htag hstring.1, if_pos ⟨rfl, alloc_ne_null h' (.pointers ptrs), hlen⟩]
      exact hfree

theorem zip_fst_snd (pairs : List (ℕ × ℕ)) : (pairs.map Prod.fst).zip (pairs.map Prod.snd) = pairs := by
  induction pairs with
  | nil => rfl
  | cons pair pairs ih => rw [List.map_cons, List.map_cons, List.zip_cons_cons, ih]

theorem built_object {entries : List (List UInt8 × Value)} {h h' : Heap} {pairs : List (ℕ × ℕ)} {keys vals : Set ℕ}
    (hentries : entriesToKarac entries h = (pairs, h')) (hb : EntriesBuilt entries h pairs h' keys vals) :
    Built (.object entries) h (jsonValueToKarac (.object entries) h).1 (jsonValueToKarac (.object entries) h).2 := by
  by_cases hempty : entries = []
  · subst hempty
    exact built_leaf (fun g fuel => rfl) (fun g fuel => rfl) h
  · have hlen : 0 < entries.length := List.length_pos_iff.mpr hempty
    rw [jsonValueToKarac, if_neg (by simpa using hempty), hentries]
    set keyBuf : Block := .pointers (pairs.map Prod.fst)
    set valBuf : Block := .pointers (pairs.map Prod.snd)
    have hkeys : Grown h (h'.alloc keyBuf).2 := hb.grown.trans (grown_alloc _ _)
    have hvals : Grown h ((h'.alloc keyBuf).2.alloc valBuf).2 := hkeys.trans (grown_alloc _ _)
    have hkeyLen : (pairs.map Prod.fst).length = entries.length := by rw [List.length_map, hb.length]
    have hvalLen : (pairs.map Prod.snd).length = entries.length := by rw [List.length_map, hb.length]
    refine built_node hvals (fun g hs fuel hfuel => ?_) (fun g hs fuel hfuel => ?_)
    · have hpairs := same_below hkeys hs
      change (readPointers g (h'.alloc keyBuf).1 entries.length).bind (fun keys =>
        (readPointers g ((h'.alloc keyBuf).2.alloc valBuf).1 entries.length).bind fun vals => _) = _
      rw [readPointers_eq (node_at hb.grown hpairs) hkeyLen, Option.bind_some,
        readPointers_eq (node_at hkeys hs) hvalLen, Option.bind_some, zip_fst_snd,
        hb.reads g (same_below hb.grown hpairs) fuel hfuel]
      rfl
    · have hpairs := same_below hkeys hs
      have hall : Same g h' (keys ∪ vals) := hb.region_eq ▸ same_below hb.grown hpairs
      have hkeyOut : (h'.alloc keyBuf).1 ∉ keys ∪ vals := by
        rw [← hb.region_eq]
        exact fun hin => Set.disjoint_left.mp (disjoint_node _) hin rfl
      have hvalOut : ((h'.alloc keyBuf).2.alloc valBuf).1 ∉ keys ∪ vals ∪ {(h'.alloc keyBuf).1} := by
        rw [← hb.region_eq, ← region_node hb.grown]
        exact fun hin => Set.disjoint_left.mp (disjoint_node _) hin rfl
      obtain ⟨g₁, hfreeKeys, hfreed₁⟩ := freeVector_eq (node_at hb.grown hpairs) hkeyLen
        (fun hin => hkeyOut (Or.inl hin)) (hb.freesKeys g (hall.mono Set.subset_union_left))
      have hapart : Disjoint (keys ∪ {(h'.alloc keyBuf).1}) vals :=
        Set.disjoint_union_left.mpr ⟨hb.disjoint, Set.disjoint_singleton_left.mpr fun hin => hkeyOut (Or.inr hin)⟩
      have hvalBlock : g₁.blocks ((h'.alloc keyBuf).2.alloc valBuf).1 = some valBuf := by
        rw [hfreed₁.kept _ fun hin => hvalOut (hin.elim (fun hin => Or.inl (Or.inl hin)) Or.inr), node_at hkeys hs]
      obtain ⟨g₂, hfreeVals, hfreed₂⟩ := freeVector_eq hvalBlock hvalLen
        (fun hin => hvalOut (Or.inl (Or.inr hin)))
        (hb.freesVals g₁ ((hall.mono Set.subset_union_right).after hfreed₁ hapart) fuel hfuel)
      have hstring : KaracJsonTag.object.toU8 ≠ KaracJsonTag.string.toU8 := by decide
      have harray : KaracJsonTag.object.toU8 ≠ KaracJsonTag.array.toU8 := by decide
      refine ⟨g₂, ?_, ?_⟩
      · rw [freePayload, if_neg fun h => hstring h.1, if_neg fun h => harray h.1, if_pos ⟨rfl, hlen⟩,
          if_pos (alloc_ne_null h' keyBuf), hfreeKeys, Option.bind_some, if_pos (alloc_ne_null _ valBuf)]
        exact hfreeVals
      · have hregion : region h ((h'.alloc keyBuf).2.alloc valBuf).2 =
            keys ∪ {(h'.alloc keyBuf).1} ∪ (vals ∪ {((h'.alloc keyBuf).2.alloc valBuf).1}) := by
          rw [region_node hkeys, region_node hb.grown, hb.region_eq]
          ext a
          simp only [Set.mem_union]
          tauto
        rw [hregion]
        exact hfreed₁.trans hfreed₂

theorem itemsBuilt_nil (h : Heap) : ItemsBuilt [] h [] h where
  grown := Grown.refl h
  length := rfl
  reads _ _ _ _ := rfl
  frees g _ _ _ := ⟨g, rfl, by rw [region_self]; exact Freed.refl g⟩

theorem ItemsBuilt.cons {item : Value} {items : List Value} {h h₁ h₂ : Heap} {ptr : ℕ} {ptrs : List ℕ}
    (hitem : Built item h ptr h₁) (hitems : ItemsBuilt items h₁ ptrs h₂) :
    ItemsBuilt (item :: items) h (ptr :: ptrs) h₂ where
  grown := hitem.grown.trans hitems.grown
  length := by rw [List.length_cons, hitems.length, List.length_cons]
  reads g hs fuel hfuel := by
    rw [heightItems, max_lt_iff] at hfuel
    rw [region_trans hitem.grown hitems.grown] at hs
    have hfirst := (hs.mono Set.subset_union_left).of_grown hitems.grown
    rw [List.mapM_cons, hitem.reads g hfirst fuel hfuel.1, hitems.reads g (hs.mono Set.subset_union_right) fuel hfuel.2]
    rfl
  frees g hs fuel hfuel := by
    rw [heightItems, max_lt_iff] at hfuel
    rw [region_trans hitem.grown hitems.grown] at hs ⊢
    have hfirst := (hs.mono Set.subset_union_left).of_grown hitems.grown
    obtain ⟨g₁, hfree₁, hfreed₁⟩ := hitem.frees g hfirst fuel hfuel.1
    obtain ⟨g₂, hfree₂, hfreed₂⟩ :=
      hitems.frees g₁ ((hs.mono Set.subset_union_right).after hfreed₁ disjoint_region) fuel hfuel.2
    refine ⟨g₂, ?_, hfreed₁.trans hfreed₂⟩
    rw [List.foldlM_cons, hfree₁]
    exact hfree₂

theorem entriesBuilt_nil (h : Heap) : EntriesBuilt [] h [] h ∅ ∅ where
  grown := Grown.refl h
  length := rfl
  region_eq := by rw [region_self, Set.union_self]
  disjoint := Set.disjoint_empty _
  reads _ _ _ _ _ := rfl
  freesKeys g _ := ⟨g, rfl, Freed.refl g⟩
  freesVals g _ _ _ := ⟨g, rfl, Freed.refl g⟩

theorem cstringOf_isUtf8 {k : List UInt8} (hk : IsUtf8 k) : IsUtf8 (cstringOf k) := by
  unfold cstringOf
  split
  · exact ⟨[], rfl⟩
  · exact hk

theorem readKey_cstring {g : Heap} {ptr : ℕ} {k : List UInt8} (hk : IsUtf8 k) (hptr : ptr ≠ 0)
    (hb : g.blocks ptr = some (.cstring (cstringOf k))) : readKey g ptr = some (cstringOf k) := by
  have hplain : ∀ b ∈ cstringOf k, (decide (b ≠ 0)) = true := by
    intro b hb
    unfold cstringOf at hb
    split at hb
    · exact absurd hb (by simp)
    · rename_i hzero
      exact decide_eq_true fun h => hzero (h ▸ hb)
  rw [readKey, if_neg hptr, hb]
  dsimp only
  rw [List.takeWhile_eq_self_iff.mpr hplain, fromUtf8Lossy_of_isUtf8 (cstringOf_isUtf8 hk)]

theorem EntriesBuilt.cons {k : List UInt8} {v : Value} {entries : List (List UInt8 × Value)} {h h₁ h₂ : Heap} {ptr : ℕ}
    {pairs : List (ℕ × ℕ)} {keys vals : Set ℕ} (hk : IsUtf8 k)
    (hval : Built v (h.alloc (.cstring (cstringOf k))).2 ptr h₁) (hb : EntriesBuilt entries h₁ pairs h₂ keys vals) :
    EntriesBuilt ((k, v) :: entries) h (((h.alloc (.cstring (cstringOf k))).1, ptr) :: pairs) h₂
      ({(h.alloc (.cstring (cstringOf k))).1} ∪ keys) (region (h.alloc (.cstring (cstringOf k))).2 h₁ ∪ vals) := by
  set block : Block := .cstring (cstringOf k)
  have hkey : Grown h (h.alloc block).2 := grown_alloc h block
  have hval' : Grown h h₁ := hkey.trans hval.grown
  have hregion : region h h₂ = {(h.alloc block).1} ∪ (region (h.alloc block).2 h₁ ∪ (keys ∪ vals)) := by
    rw [region_trans hkey (hval.grown.trans hb.grown), region_trans hval.grown hb.grown, region_alloc, hb.region_eq]
  have hkeyApart : Disjoint {(h.alloc block).1} (region (h.alloc block).2 h₁ ∪ (keys ∪ vals)) := by
    rw [← region_alloc, ← hb.region_eq, ← region_trans hval.grown hb.grown]
    exact disjoint_region
  have hvalApart : Disjoint (region (h.alloc block).2 h₁) (keys ∪ vals) := by
    rw [← hb.region_eq]
    exact disjoint_region
  have hkeyBlock {g : Heap} {r : Set ℕ} (hs : Same g h₂ r) (hr : (h.alloc block).1 ∈ r) :
      g.blocks (h.alloc block).1 = some block := by
    rw [hs _ hr]
    exact ((hval.grown.trans hb.grown).old _ (Nat.lt_succ_self _)).trans (alloc_block h block)
  refine ⟨hval'.trans hb.grown, by rw [List.length_cons, hb.length, List.length_cons], ?_, ?_, ?_, ?_, ?_⟩
  · rw [hregion]
    ext a
    simp only [Set.mem_union]
    tauto
  · rw [Set.disjoint_union_right] at hkeyApart hvalApart
    rw [Set.disjoint_union_right] at hkeyApart
    refine Set.disjoint_union_left.mpr ⟨Set.disjoint_union_right.mpr ⟨hkeyApart.1, hkeyApart.2.2⟩, ?_⟩
    exact Set.disjoint_union_right.mpr ⟨hvalApart.1.symm, hb.disjoint⟩
  · intro g hs fuel hfuel map
    rw [heightEntries, max_lt_iff] at hfuel
    have hkeyIn : (h.alloc block).1 ∈ region h h₂ := by
      rw [hregion]
      exact Or.inl rfl
    have hvalSame : Same g h₁ (region (h.alloc block).2 h₁) := by
      refine (hs.mono ?_).of_grown hb.grown
      rw [hregion]
      exact fun a ha => Or.inr (Or.inl ha)
    have hrest : Same g h₂ (region h₁ h₂) := by
      refine hs.mono ?_
      rw [hregion, hb.region_eq]
      exact fun a ha => Or.inr (Or.inr ha)
    rw [List.foldlM_cons, readKey_cstring hk (alloc_ne_null h block) (hkeyBlock hs hkeyIn), Option.bind_some,
      hval.reads g hvalSame fuel hfuel.1, Option.map_some]
    exact hb.reads g hrest fuel hfuel.2 _
  · intro g hs
    obtain ⟨g₁, hfree₁, hfreed₁⟩ := exists_free (hkeyBlock hs (Or.inl rfl))
    have hapart : Disjoint {(h.alloc block).1} keys := hkeyApart.mono_right fun a ha => Or.inr (Or.inl ha)
    obtain ⟨g₂, hfree₂, hfreed₂⟩ := hb.freesKeys g₁ ((hs.mono Set.subset_union_right).after hfreed₁ hapart)
    refine ⟨g₂, ?_, hfreed₁.trans hfreed₂⟩
    have hfreeKey : freeKey g (h.alloc block).1 = some g₁ := by
      rw [freeKey, if_neg (alloc_ne_null h block), hfree₁, Option.bind_some]
    rw [List.map_cons, List.foldlM_cons, hfreeKey]
    exact hfree₂
  · intro g hs fuel hfuel
    rw [heightEntries, max_lt_iff] at hfuel
    have hvalSame : Same g h₁ (region (h.alloc block).2 h₁) := (hs.mono Set.subset_union_left).of_grown hb.grown
    obtain ⟨g₁, hfree₁, hfreed₁⟩ := hval.frees g hvalSame fuel hfuel.1
    have hapart : Disjoint (region (h.alloc block).2 h₁) vals := hvalApart.mono_right Set.subset_union_right
    obtain ⟨g₂, hfree₂, hfreed₂⟩ :=
      hb.freesVals g₁ ((hs.mono Set.subset_union_right).after hfreed₁ hapart) fuel hfuel.2
    refine ⟨g₂, ?_, hfreed₁.trans hfreed₂⟩
    rw [List.map_cons, List.foldlM_cons, hfree₁]
    exact hfree₂

mutual

/-- Every tree is built, by induction on the value. -/
theorem built : (v : Value) → v.Valid → (h : Heap) → Built v h (jsonValueToKarac v h).1 (jsonValueToKarac v h).2
  | .null, _, h => built_leaf (fun _ _ => rfl) (fun _ _ => rfl) h
  | .bool _, _, h => built_leaf (fun _ _ => rfl) (fun _ _ => rfl) h
  | .number _, hv, h => built_number hv h
  | .string _, hv, h => built_string hv h
  | .array items, hv, h => built_array rfl (items_built items hv h)
  | .object entries, hv, h => by
    obtain ⟨keys, vals, hentries⟩ := entries_built entries hv.2 h
    exact built_object rfl hentries

theorem items_built : (items : List Value) → ValidItems items → (h : Heap) →
    ItemsBuilt items h (itemsToKarac items h).1 (itemsToKarac items h).2
  | [], _, h => itemsBuilt_nil h
  | item :: items, hv, h => .cons (built item hv.1 h) (items_built items hv.2 _)

theorem entries_built : (entries : List (List UInt8 × Value)) → ValidEntries entries → (h : Heap) →
    ∃ keys vals, EntriesBuilt entries h (entriesToKarac entries h).1 (entriesToKarac entries h).2 keys vals
  | [], _, h => ⟨∅, ∅, entriesBuilt_nil h⟩
  | (k, v) :: entries, hv, h => by
    obtain ⟨keys, vals, hentries⟩ :=
      entries_built entries hv.2 (jsonValueToKarac v (h.alloc (.cstring (cstringOf k))).2).2
    exact ⟨_, _, hentries.cons hv.1.1 (built v hv.1.2 _)⟩

end

/-! What is kept. -/

theorem cstringOf_eq_iff {k : List UInt8} : cstringOf k = k ↔ 0 ∉ k := by
  unfold cstringOf
  split
  · rename_i hzero
    refine iff_of_false (fun h => ?_) (fun h => h hzero)
    rw [← h] at hzero
    exact absurd hzero (by simp)
  · rename_i hzero
    exact iff_of_true rfl hzero

theorem zero_notMem_cstringOf (k : List UInt8) : 0 ∉ cstringOf k := by
  unfold cstringOf
  split
  · simp
  · assumption

/-- New keys are appended. -/
theorem inserted_eq_append {map entries : List (List UInt8 × Value)} (h : ((map ++ entries).map Prod.fst).Nodup) :
    inserted map entries = map ++ entries := by
  induction entries generalizing map with
  | nil => exact (List.append_nil map).symm
  | cons e entries ih =>
    have hnew : e.1 ∉ map.map Prod.fst := by
      rw [List.map_append, List.map_cons, List.nodup_append] at h
      exact fun hin => h.2.2 _ hin _ List.mem_cons_self rfl
    have hinsert : mapInsert map e.1 e.2 = map ++ [e] := if_neg hnew
    have hnext : ((map ++ [e] ++ entries).map Prod.fst).Nodup := by rwa [List.append_assoc, List.singleton_append]
    change inserted (mapInsert map e.1 e.2) entries = _
    rw [hinsert, ih hnext, List.append_assoc, List.singleton_append]

/-- No key comes from anywhere else. -/
theorem key_of_mem_inserted {map entries : List (List UInt8 × Value)} {k : List UInt8}
    (h : k ∈ (inserted map entries).map Prod.fst) : k ∈ map.map Prod.fst ∨ k ∈ entries.map Prod.fst := by
  induction entries generalizing map with
  | nil => exact Or.inl h
  | cons e entries ih =>
    have hinsert : ∀ k ∈ (mapInsert map e.1 e.2).map Prod.fst, k ∈ map.map Prod.fst ∨ k = e.1 := by
      intro k hk
      unfold mapInsert at hk
      split at hk
      · obtain ⟨x, hx, rfl⟩ := List.mem_map.mp hk
        obtain ⟨y, hy, rfl⟩ := List.mem_map.mp hx
        split
        · exact Or.inr rfl
        · exact Or.inl (List.mem_map_of_mem hy)
      · rw [List.map_append, List.mem_append] at hk
        exact hk.imp_right fun hk => List.mem_singleton.mp hk
    rw [List.map_cons, List.mem_cons]
    rcases ih h with hmap | hentries
    · rcases hinsert k hmap with hold | hnew
      · exact Or.inl hold
      · exact Or.inr (Or.inl hnew)
    · exact Or.inr (Or.inr hentries)

theorem keys_keptEntries (entries : List (List UInt8 × Value)) :
    (keptEntries entries).map Prod.fst = (entries.map Prod.fst).map cstringOf := by
  induction entries with
  | nil => rfl
  | cons e entries ih =>
    rw [keptEntries, List.map_cons, ih]
    rfl

theorem inserted_keptEntries_iff {entries : List (List UInt8 × Value)} (hnodup : (entries.map Prod.fst).Nodup) :
    inserted [] (keptEntries entries) = entries ↔ keptEntries entries = entries := by
  constructor
  · intro h
    have hplain : ∀ k ∈ entries.map Prod.fst, cstringOf k = k := by
      intro k hk
      rw [← h] at hk
      have hkept := (key_of_mem_inserted hk).resolve_left (by simp)
      rw [keys_keptEntries] at hkept
      obtain ⟨k', -, rfl⟩ := List.mem_map.mp hkept
      exact cstringOf_eq_iff.mpr (zero_notMem_cstringOf k')
    have hkeys : (keptEntries entries).map Prod.fst = entries.map Prod.fst := by
      rw [keys_keptEntries]
      exact (List.map_congr_left hplain).trans (List.map_id _)
    rw [inserted_eq_append (by rwa [List.nil_append, hkeys])] at h
    exact h
  · intro h
    rw [h]
    exact inserted_eq_append hnodup

mutual

theorem kept_eq_iff : (v : Value) → v.Valid → (v.kept = v ↔ v.KeysPlain)
  | .null, _ => iff_of_true rfl trivial
  | .bool _, _ => iff_of_true rfl trivial
  | .number _, _ => iff_of_true rfl trivial
  | .string _, _ => iff_of_true rfl trivial
  | .array items, hv => by
    rw [Value.kept, Value.array.injEq, Value.KeysPlain]
    exact keptItems_eq_iff items hv
  | .object entries, hv => by
    rw [Value.kept, Value.object.injEq, Value.KeysPlain, inserted_keptEntries_iff hv.1]
    exact keptEntries_eq_iff entries hv.2

theorem keptItems_eq_iff : (items : List Value) → ValidItems items → (keptItems items = items ↔ ItemsPlain items)
  | [], _ => iff_of_true rfl trivial
  | item :: items, hv => by
    rw [keptItems, List.cons.injEq, ItemsPlain, kept_eq_iff item hv.1, keptItems_eq_iff items hv.2]

theorem keptEntries_eq_iff : (entries : List (List UInt8 × Value)) → ValidEntries entries →
    (keptEntries entries = entries ↔ EntriesPlain entries)
  | [], _ => iff_of_true rfl trivial
  | (k, v) :: entries, hv => by
    rw [keptEntries, List.cons.injEq, Prod.mk.injEq, EntriesPlain, cstringOf_eq_iff, kept_eq_iff v hv.1.2,
      keptEntries_eq_iff entries hv.2]

end

/-! The claim. -/

/-- From any heap on, the tree of a value reads as the value, and its destructor frees all that was allocated for it,
each block once, and nothing else. -/
structure RoundTrips (v : Value) : Prop where
  lossless : ∀ h : Heap, ∃ depth, ∀ fuel, depth < fuel →
    karacToJsonValue (jsonValueToKarac v h).2 fuel (jsonValueToKarac v h).1 = some v
  freed : ∀ h : Heap, ∃ depth, ∀ fuel, depth < fuel →
    ∃ g, freeValue fuel (jsonValueToKarac v h).2 (jsonValueToKarac v h).1 = some g ∧ g.blocks = h.blocks

/-- The destructor is right for all trees. -/
theorem tree_freed {v : Value} (hv : v.Valid) (h : Heap) : ∃ depth, ∀ fuel, depth < fuel →
    ∃ g, freeValue fuel (jsonValueToKarac v h).2 (jsonValueToKarac v h).1 = some g ∧ g.blocks = h.blocks := by
  have hbuilt := built v hv h
  refine ⟨v.height, fun fuel hfuel => ?_⟩
  obtain ⟨g, hfree, hfreed⟩ := hbuilt.frees _ (fun _ _ => rfl) fuel hfuel
  exact ⟨g, hfree, hfreed.blocks_eq hbuilt.grown⟩

theorem kept_of_roundTrips {v : Value} (hv : v.Valid) (hround : RoundTrips v) (h : Heap) : v.kept = v := by
  obtain ⟨depth, hread⟩ := hround.lossless h
  have hlossless := hread (max depth v.height + 1) (by omega)
  rw [(built v hv h).reads _ (fun _ _ => rfl) _ (by omega)] at hlossless
  exact Option.some.inj hlossless

def emptyHeap : Heap := ⟨fun _ => none, 1, Nat.one_pos, rfl, fun _ _ => rfl⟩

/-- An empty key and an empty string, and integers in an array. -/
def nestedValue : Value :=
  .object [([], .string []), ([0x61], .array [.number (.posInt 7), .number (.negInt (-1)), .array []])]

theorem nestedValue_valid : nestedValue.Valid :=
  ⟨by decide, ⟨⟨[], rfl⟩, ⟨[], rfl⟩⟩, ⟨⟨['a'], by decide⟩, show (7 : BitVec 64).toNat < 2 ^ 63 by decide,
    show (-1 : BitVec 64).slt 0 = true by decide, trivial, trivial⟩, trivial⟩

/-- A key that is a zero byte takes the place of the empty key. -/
def zeroKeyValue : Value := .object [([], .null), ([0], .bool true)]

end Karac.Runtime.Json
