import Karac.Cli.Fix
import Karac.Lib.Sifting

/-! What `karac fix` applies, and when that is a choice of whole fixes. -/

namespace Karac.Cli

open Lib

/-! The filter keeps an edit unless one that it kept starts inside of it. -/

def StartsInside (f e : TextEdit) : Prop := f.offset < e.stop

instance : DecidableRel StartsInside := fun f e => inferInstanceAs (Decidable (f.offset < e.stop))

theorem TextEdit.stop_le (e : TextEdit) : e.stop ≤ usizeMax := Nat.min_le_right _ _

theorem TextEdit.stop_eq {e : TextEdit} {source : Text} (hsource : source.length ≤ isizeMax)
    (h : e.offset + e.length ≤ source.length) : e.stop = e.offset + e.length := by
  have hle : isizeMax ≤ usizeMax := by decide
  rw [stop, saturatingAdd]
  omega

/-- The bound is the start of the last edit kept, so it alone tells whether some edit kept starts inside. -/
theorem foldl_dedupStep (kept rest : List TextEdit) (last : ℕ)
    (hsorted : (kept ++ rest).Pairwise fun e f => f.offset ≤ e.offset) (hle : ∀ e ∈ kept, last ≤ e.offset)
    (hlast : last = usizeMax ∨ ∃ e ∈ kept, e.offset = last) :
    (rest.foldl dedupStep (kept, last)).1 = sift StartsInside kept rest := by
  induction rest generalizing kept last with
  | nil => rfl
  | cons e rest ih =>
    have hiff : last < e.stop ↔ ∃ f ∈ kept, StartsInside f e := by
      constructor
      · intro hlt
        rcases hlast with rfl | ⟨f, hf, rfl⟩
        · exact absurd hlt (Nat.not_lt.mpr e.stop_le)
        · exact ⟨f, hf, hlt⟩
      · rintro ⟨f, hf, hlt⟩
        exact (hle f hf).trans_lt hlt
    rw [List.foldl_cons, dedupStep, sift]
    by_cases hskip : last < e.stop
    · rw [if_pos hskip, if_pos (hiff.mp hskip)]
      exact ih kept last (hsorted.sublist ((List.sublist_cons_self e rest).append_left kept)) hle hlast
    · rw [if_neg hskip, if_neg (mt hiff.mpr hskip)]
      have hbelow : ∀ f ∈ kept, e.offset ≤ f.offset := fun f hf =>
        (List.pairwise_append.mp hsorted).2.2 f hf e List.mem_cons_self
      refine ih (kept ++ [e]) e.offset (by simpa using hsorted) (fun f hf => ?_) (.inr ⟨e, by simp, rfl⟩)
      rcases List.mem_append.mp hf with hf | hf
      · exact hbelow f hf
      · rw [List.mem_singleton.mp hf]

theorem offset_trans (e f g : TextEdit) (hef : decide (f.offset ≤ e.offset) = true)
    (hfg : decide (g.offset ≤ f.offset) = true) : decide (g.offset ≤ e.offset) = true := by
  simp only [decide_eq_true_eq] at *
  omega

theorem offset_total (e f : TextEdit) : (decide (f.offset ≤ e.offset) || decide (e.offset ≤ f.offset)) = true := by
  simp only [Bool.or_eq_true, decide_eq_true_eq]
  omega

section Sorted

variable (edits : List TextEdit)

theorem sortByOffset_perm : (sortByOffset edits).Perm edits := List.mergeSort_perm _ _

theorem sortByOffset_pairwise : (sortByOffset edits).Pairwise fun e f => f.offset ≤ e.offset :=
  (List.pairwise_mergeSort offset_trans offset_total edits).imp fun h => by simpa using h

theorem deduped_eq_sift : deduped edits = sift StartsInside [] (sortByOffset edits) :=
  foldl_dedupStep [] _ usizeMax (sortByOffset_pairwise edits) (by simp) (.inl rfl)

theorem deduped_sublist : (deduped edits).Sublist (sortByOffset edits) := by
  rw [deduped_eq_sift]
  exact sift_sublist [] _

theorem mem_of_mem_deduped {e : TextEdit} (h : e ∈ deduped edits) : e ∈ edits :=
  (sortByOffset_perm edits).mem_iff.mp ((deduped_sublist edits).subset h)

/-- Each edit kept ends where the one kept before it starts, or earlier. -/
theorem deduped_pairwise : (deduped edits).Pairwise fun f e => e.stop ≤ f.offset := by
  rw [deduped_eq_sift]
  exact (sift_pairwise _ List.Pairwise.nil).imp fun h => Nat.not_lt.mp h

end Sorted

/-! The application, from the end of the file to its start, gives the text with the ranges replaced. -/

/-- Up to the first edit the text is the source. -/
theorem spliced_from (source : Text) {pos stop : ℕ} {edits : List TextEdit} (hpos : pos ≤ stop)
    (hstop : ∀ e ∈ edits, stop ≤ e.offset) :
    spliced source pos edits = (source.drop pos).take (stop - pos) ++ spliced source stop edits := by
  have hdrop : source.drop stop = (source.drop pos).drop (stop - pos) := by
    rw [List.drop_drop, Nat.add_sub_cancel' hpos]
  cases edits with
  | nil => rw [spliced, spliced, hdrop, List.take_append_drop]
  | cons e edits =>
    have he : stop ≤ e.offset := hstop e List.mem_cons_self
    have htake : (source.drop pos).take (e.offset - pos) =
        (source.drop pos).take (stop - pos) ++ (source.drop stop).take (e.offset - stop) := by
      rw [hdrop, ← List.take_add]
      congr 1
      omega
    rw [spliced, spliced, htake, List.append_assoc, List.append_assoc, List.append_assoc]

theorem spliced_cons (source : Text) {e : TextEdit} {edits : List TextEdit} (hstop : e.offset + e.length ≤ source.length)
    (hedits : ∀ f ∈ edits, e.offset + e.length ≤ f.offset) :
    (spliced source 0 edits).take e.offset ++ e.replacement ++ (spliced source 0 edits).drop (e.offset + e.length) =
      spliced source 0 (e :: edits) := by
  have hfrom : spliced source 0 edits =
      source.take (e.offset + e.length) ++ spliced source (e.offset + e.length) edits := by
    simpa using spliced_from source (Nat.zero_le (e.offset + e.length)) hedits
  have hlen : (source.take (e.offset + e.length)).length = e.offset + e.length := List.length_take_of_le hstop
  rw [hfrom, List.take_append_of_le_length (by omega), List.take_take, Nat.min_eq_left (Nat.le_add_right _ _),
    List.drop_append_of_le_length (by omega), List.drop_of_length_le hlen.le, List.nil_append, spliced, Nat.sub_zero,
    List.drop_zero]

section Apply

variable {source : Text} (hsource : source.length ≤ isizeMax)
include hsource

theorem applyEdits_spliced {edits done : List TextEdit} {rewritten : Text}
    (hwithin : ∀ e ∈ edits, e.offset + e.length ≤ source.length)
    (hpairwise : (done.reverse ++ edits).Pairwise fun f e => e.offset + e.length ≤ f.offset)
    (h : applyEdits (spliced source 0 done) edits = .ok rewritten) :
    rewritten = spliced source 0 (edits.reverse ++ done) := by
  induction edits generalizing done with
  | nil => exact (Except.ok.inj h).symm
  | cons e edits ih =>
    have he := hwithin e List.mem_cons_self
    have hdone : ∀ f ∈ done, e.offset + e.length ≤ f.offset := fun f hf =>
      (List.pairwise_append.mp hpairwise).2.2 f (List.mem_reverse.mpr hf) e List.mem_cons_self
    have hstep : ∀ text, applyEdit (spliced source 0 done) e = .ok text → text = spliced source 0 (e :: done) := by
      intro text htext
      rw [applyEdit, e.stop_eq hsource he] at htext
      split at htext
      · cases htext
      · rw [replaceRange] at htext
        split at htext
        · rw [← Except.ok.inj htext, spliced_cons source he hdone]
        · cases htext
    rw [applyEdits, List.foldlM_cons] at h
    obtain ⟨text, htext, hrest⟩ : ∃ text, applyEdit (spliced source 0 done) e = .ok text ∧
        applyEdits text edits = .ok rewritten := by
      cases htext : applyEdit (spliced source 0 done) e with
      | error _ => rw [htext] at h; cases h
      | ok text => rw [htext] at h; exact ⟨text, rfl, h⟩
    rw [hstep text htext] at hrest
    rw [ih (fun f hf => hwithin f (List.mem_cons_of_mem e hf)) (by simpa using hpairwise) hrest, List.reverse_cons,
      List.append_assoc, List.singleton_append]

variable {edits : List TextEdit} (hwithin : ∀ e ∈ edits, e.offset + e.length ≤ source.length)
include hwithin

theorem deduped_stops : (deduped edits).Pairwise fun f e => e.offset + e.length ≤ f.offset :=
  (deduped_pairwise edits).imp_of_mem fun {_ e} _ he h => by
    rwa [e.stop_eq hsource (hwithin e (mem_of_mem_deduped edits he))] at h

/-- What is written is the source with the ranges of the edits kept, from the lowest up, replaced. -/
theorem applyEdits_deduped {rewritten : Text} (h : applyEdits source (deduped edits) = .ok rewritten) :
    rewritten = spliced source 0 (deduped edits).reverse := by
  have hspliced := @applyEdits_spliced source hsource _ [] _
    (fun e he => hwithin e (mem_of_mem_deduped edits he)) (by simpa using deduped_stops hsource hwithin)
    (by simpa [spliced] using h)
  rwa [List.append_nil] at hspliced

end Apply

/-! Which edits are kept, told from the fixes alone. -/

/-- An edit, and the place in the list of all edits where it was reported. -/
abbrev Report := TextEdit × ℕ

/-- What starts later goes first, and what was reported earlier among what starts together. -/
def GoesFirst (p q : Report) : Prop := q.1.offset < p.1.offset ∨ p.1.offset = q.1.offset ∧ p.2 < q.2

/-- `p` goes first, and starts inside the range of `q`. -/
def Displaces (p q : Report) : Prop := GoesFirst p q ∧ p.1.offset < q.1.offset + q.1.length

instance : DecidableRel GoesFirst := fun p q =>
  inferInstanceAs (Decidable (q.1.offset < p.1.offset ∨ p.1.offset = q.1.offset ∧ p.2 < q.2))

instance : DecidableRel Displaces := fun p q =>
  inferInstanceAs (Decidable (GoesFirst p q ∧ p.1.offset < q.1.offset + q.1.length))

/-- Some report of `e` is displaced by none but displaced ones. -/
def Prevails (edits : List TextEdit) (e : TextEdit) : Prop :=
  ∃ i, (e, i) ∈ edits.zipIdx ∧ Stands Displaces {p | p ∈ edits.zipIdx} (e, i)

/-- The fixes can be applied as wholes: no insertion is reported twice, and of an edit that prevails the whole envelope
does. -/
structure Separable (fixes : List (List TextEdit)) : Prop where
  insertions : ∀ e : TextEdit, e.length = 0 → fixes.flatten.count e ≤ 1
  envelopes : ∀ fix ∈ fixes, (∀ e ∈ fix, Prevails fixes.flatten e) ∨ ∀ e ∈ fix, ¬ Prevails fixes.flatten e

theorem GoesFirst.asymm {p q : Report} (h : GoesFirst p q) : ¬ GoesFirst q p := by
  unfold GoesFirst at *
  omega

section Reports

variable (edits : List TextEdit)

/-- The reports in the order in which the filter goes through them. -/
def reports : List Report := edits.zipIdx.mergeSort (List.zipIdxLE fun e f => decide (f.offset ≤ e.offset))

theorem reports_perm : (reports edits).Perm edits.zipIdx := List.mergeSort_perm _ _

theorem map_fst_reports : (reports edits).map (·.1) = sortByOffset edits := List.mergeSort_zipIdx

theorem reports_index_ne : (reports edits).Pairwise fun p q => p.2 ≠ q.2 := by
  have hnodup : ((reports edits).map Prod.snd).Nodup := by
    rw [((reports_perm edits).map Prod.snd).nodup_iff, List.zipIdx_map_snd]
    exact List.nodup_range'
  exact List.pairwise_map.mp hnodup

theorem reports_nodup : (reports edits).Nodup := (reports_index_ne edits).imp fun hne heq => hne (congrArg Prod.snd heq)

theorem reports_goesFirst : (reports edits).Pairwise GoesFirst := by
  have hle : (reports edits).Pairwise fun p q =>
      List.zipIdxLE (fun e f : TextEdit => decide (f.offset ≤ e.offset)) p q = true :=
    List.pairwise_mergeSort (List.zipIdxLE_trans offset_trans) (List.zipIdxLE_total offset_total) _
  refine (hle.and (reports_index_ne edits)).imp fun {p q} h => ?_
  obtain ⟨hpq, hne⟩ := h
  simp only [List.zipIdxLE, decide_eq_true_eq] at hpq
  unfold GoesFirst
  split at hpq
  · split at hpq
    · simp only [decide_eq_true_eq] at hpq
      omega
    · omega
  · cases hpq

variable {edits} {source : Text} (hsource : source.length ≤ isizeMax)
  (hwithin : ∀ e ∈ edits, e.offset + e.length ≤ source.length)
include hsource hwithin

theorem deduped_eq_map_sift : deduped edits = (sift Displaces [] (reports edits)).map (·.1) := by
  have hmem : ∀ p ∈ reports edits, p.1 ∈ edits := fun p hp =>
    (sortByOffset_perm edits).mem_iff.mp (map_fst_reports edits ▸ List.mem_map_of_mem hp)
  have hiff : (reports edits).Pairwise fun p q => Displaces p q ↔ StartsInside p.1 q.1 :=
    (reports_goesFirst edits).imp_of_mem fun {p q} _ hq hfirst => by
      rw [StartsInside, q.1.stop_eq hsource (hwithin q.1 (hmem q hq))]
      exact and_iff_right hfirst
  have hmap := map_sift Prod.fst [] (reports edits) hiff
  rw [List.map_nil, map_fst_reports, ← deduped_eq_sift] at hmap
  exact hmap.symm

theorem mem_deduped_iff {e : TextEdit} : e ∈ deduped edits ↔ Prevails edits e := by
  have hset : {p | p ∈ reports edits} = {p | p ∈ edits.zipIdx} := Set.ext fun p => (reports_perm edits).mem_iff
  have hstands : ∀ p ∈ reports edits,
      (p ∈ sift Displaces [] (reports edits) ↔ Stands Displaces {p | p ∈ edits.zipIdx} p) := fun p hp => by
    rw [← hset]
    exact mem_sift_iff_stands (reports_nodup edits) (fun p _ h => h.1.asymm h.1)
      ((reports_goesFirst edits).imp fun hfirst h => hfirst.asymm h.1) hp
  rw [deduped_eq_map_sift hsource hwithin, List.mem_map]
  constructor
  · rintro ⟨⟨e, i⟩, hmem, rfl⟩
    have hreport : (e, i) ∈ reports edits := (sift_sublist [] _).subset hmem
    exact ⟨i, (reports_perm edits).mem_iff.mp hreport, (hstands _ hreport).mp hmem⟩
  · rintro ⟨i, hmem, h⟩
    exact ⟨(e, i), (hstands _ ((reports_perm edits).mem_iff.mpr hmem)).mpr h, rfl⟩

end Reports

theorem count_deduped (edits : List TextEdit) {e : TextEdit} (he : e.length = 0) :
    (deduped edits).count e = edits.count e := by
  have hunbeaten : (sortByOffset edits).Pairwise fun g f => (f == e) = true → ¬ StartsInside g f := by
    refine (sortByOffset_pairwise edits).imp fun {g f} hle hf => ?_
    have hstop : f.stop ≤ f.offset := by
      rw [beq_iff_eq.mp hf, TextEdit.stop, saturatingAdd, he]
      omega
    exact Nat.not_lt.mpr (hstop.trans hle)
  have hfilter := filter_sift (P := (· == e)) [] (sortByOffset edits) hunbeaten
  rw [← deduped_eq_sift, List.nil_append] at hfilter
  calc (deduped edits).count e = ((deduped edits).filter (· == e)).length := List.count_eq_length_filter
    _ = ((sortByOffset edits).filter (· == e)).length := congrArg List.length hfilter
    _ = (sortByOffset edits).count e := List.count_eq_length_filter.symm
    _ = edits.count e := (sortByOffset_perm edits).count_eq e

/-- Of an edit that takes bytes away one report at most is kept, of an insertion every one. -/
theorem deduped_nodup_iff {edits : List TextEdit} {source : Text} (hsource : source.length ≤ isizeMax)
    (hwithin : ∀ e ∈ edits, e.offset + e.length ≤ source.length) :
    (deduped edits).Nodup ↔ ∀ e : TextEdit, e.length = 0 → edits.count e ≤ 1 := by
  constructor
  · intro hnodup e he
    rw [← count_deduped edits he]
    exact List.nodup_iff_count_le_one.mp hnodup e
  · intro hcount
    rw [List.nodup_iff_count_le_one]
    intro e
    by_cases he : e.length = 0
    · exact (count_deduped edits he).le.trans (hcount e he)
    · -- the second report of the edit would start inside the first
      by_contra htwice
      have hsub : [e, e].Sublist (deduped edits) := List.replicate_sublist_iff.mpr (Nat.not_le.mp htwice)
      have hstop := List.pairwise_pair.mp ((deduped_stops hsource hwithin).sublist hsub)
      omega

/-! The run. -/

section Run

variable {parseErrors : Text → ℕ} {source : Text} {pipeline : Pipeline} {dryRun : Bool} {applied : List TextEdit}
  {rewritten : Text}

theorem cmdFix_applied (h : cmdFix parseErrors source pipeline dryRun = .applied applied rewritten) :
    applied = deduped pipeline.edits ∧ applyEdits source (deduped pipeline.edits) = .ok rewritten := by
  simp only [cmdFix] at h
  split at h
  · split at h <;> cases h
  · split at h
    · cases h
    · split at h
      · cases h
      · rename_i text htext
        split at h
        · cases h
        · cases h
          exact ⟨rfl, htext⟩

/-- What a run that writes the file has applied is a choice of whole fixes, each edit once, if and only if the fixes are
separable. The rest of it (a choice of disjoint edits, and the source with just their ranges replaced) holds anyway. -/
theorem faithful_iff_separable (hsource : source.length ≤ isizeMax)
    (hwithin : ∀ e ∈ pipeline.edits, e.offset + e.length ≤ source.length)
    (h : cmdFix parseErrors source pipeline dryRun = .applied applied rewritten) :
    Faithful source pipeline.fixes applied rewritten ↔ Separable pipeline.fixes := by
  obtain ⟨rfl, happly⟩ := cmdFix_applied h
  have hstops := deduped_stops hsource hwithin
  have hmem : ∀ e, e ∈ deduped pipeline.edits ↔ Prevails pipeline.fixes.flatten e := fun e => by
    rw [← pipeline.edits_eq_flatten]
    exact mem_deduped_iff hsource hwithin
  have honce : (deduped pipeline.edits).Nodup ↔ ∀ e : TextEdit, e.length = 0 → pipeline.fixes.flatten.count e ≤ 1 := by
    rw [← pipeline.edits_eq_flatten]
    exact deduped_nodup_iff hsource hwithin
  constructor
  · intro hfaithful
    refine ⟨honce.mp hfaithful.once, fun fix hfix => ?_⟩
    exact (hfaithful.whole fix hfix).imp (fun hall e he => (hmem e).mp (hall e he))
      fun hnone e he => mt (hmem e).mpr (hnone e he)
  · intro hseparable
    refine ⟨fun e he => ?_, hstops.imp .inr, ⟨_, List.reverse_perm _, List.pairwise_reverse.mpr hstops, ?_⟩,
      honce.mpr hseparable.insertions, fun fix hfix => ?_⟩
    · have hflat := mem_of_mem_deduped _ he
      rw [pipeline.edits_eq_flatten] at hflat
      exact List.mem_flatten.mp hflat
    · exact applyEdits_deduped hsource hwithin happly
    · exact (hseparable.envelopes fix hfix).imp (fun hall e he => (hmem e).mpr (hall e he))
        fun hnone e he => mt (hmem e).mp (hnone e he)

theorem cmdFix_eq_applied (hedits : pipeline.edits ≠ []) {kept : List TextEdit} (hkept : deduped pipeline.edits = kept)
    (happly : applyEdits source kept = .ok rewritten) (hparse : parseErrors rewritten ≤ pipeline.parsed.errors) :
    cmdFix parseErrors source pipeline false = .applied kept rewritten := by
  simp [cmdFix, hedits, hkept, happly, Nat.not_lt.mpr hparse]

end Run

/-! Runs: two diagnostics with the same migration, a rename whose second edit another fix displaces, and a single fix. -/

def utf8 (s : String) : Text := s.toByteArray.data.toList

def clean : Pipeline := ⟨⟨0, [], []⟩, none, none, none, none⟩

/-- `n: i64` to `n: Mutex[i64]`. -/
def wrapField : List TextEdit := [⟨3, 0, utf8 "Mutex["⟩, ⟨6, 0, utf8 "]"⟩]

def migratedTwice : Pipeline := { clean with ownership := some ⟨[none, none], [], [wrapField, wrapField]⟩ }

/-- `n` to `m`, in `n;n.k`. -/
def rename : List TextEdit := [⟨2, 1, utf8 "m"⟩, ⟨0, 1, utf8 "m"⟩]

def renamedHalf : Pipeline := { clean with resolved := some ⟨[some ⟨2, 3, utf8 "k"⟩, none], [rename]⟩ }

def wrapped : Pipeline := { clean with ownership := some ⟨[none], [], [wrapField]⟩ }

theorem deduped_migratedTwice : deduped migratedTwice.edits =
    [⟨6, 0, utf8 "]"⟩, ⟨6, 0, utf8 "]"⟩, ⟨3, 0, utf8 "Mutex["⟩, ⟨3, 0, utf8 "Mutex["⟩] := by
  have hsort : sortByOffset migratedTwice.edits =
      [⟨6, 0, utf8 "]"⟩, ⟨6, 0, utf8 "]"⟩, ⟨3, 0, utf8 "Mutex["⟩, ⟨3, 0, utf8 "Mutex["⟩] := by
    simp [sortByOffset, migratedTwice, Pipeline.edits, Pipeline.hasParseErrors, Ownership.edits, clean, wrapField,
      List.mergeSort, List.MergeSort.Internal.splitInTwo]
  rw [deduped, hsort]
  decide

theorem deduped_renamedHalf : deduped renamedHalf.edits = [⟨2, 3, utf8 "k"⟩, ⟨0, 1, utf8 "m"⟩] := by
  have hsort : sortByOffset renamedHalf.edits = [⟨2, 3, utf8 "k"⟩, ⟨2, 1, utf8 "m"⟩, ⟨0, 1, utf8 "m"⟩] := by
    simp [sortByOffset, renamedHalf, Pipeline.edits, Pipeline.hasParseErrors, Resolved.edits, clean, rename,
      List.mergeSort, List.MergeSort.Internal.splitInTwo]
  rw [deduped, hsort]
  decide

theorem deduped_wrapped : deduped wrapped.edits = [⟨6, 0, utf8 "]"⟩, ⟨3, 0, utf8 "Mutex["⟩] := by
  have hsort : sortByOffset wrapped.edits = [⟨6, 0, utf8 "]"⟩, ⟨3, 0, utf8 "Mutex["⟩] := by
    simp [sortByOffset, wrapped, Pipeline.edits, Pipeline.hasParseErrors, Ownership.edits, clean, wrapField,
      List.mergeSort, List.MergeSort.Internal.splitInTwo]
  rw [deduped, hsort]
  decide

/-- The same insertions twice wrap the type twice, and a displaced half of a rename leaves the other half behind. -/
theorem fix_not_faithful :
    (∃ applied, cmdFix (fun _ => 0) (utf8 "n: i64") migratedTwice false =
        .applied applied (utf8 "n: Mutex[Mutex[i64]]") ∧
      ¬ Faithful (utf8 "n: i64") migratedTwice.fixes applied (utf8 "n: Mutex[Mutex[i64]]")) ∧
    ∃ applied, cmdFix (fun _ => 0) (utf8 "n;n.k") renamedHalf false = .applied applied (utf8 "m;k") ∧
      ¬ Faithful (utf8 "n;n.k") renamedHalf.fixes applied (utf8 "m;k") := by
  constructor
  · refine ⟨_, cmdFix_eq_applied (by decide) deduped_migratedTwice rfl le_rfl, fun h => ?_⟩
    exact absurd h.once (by decide)
  · refine ⟨_, cmdFix_eq_applied (by decide) deduped_renamedHalf rfl le_rfl, fun h => ?_⟩
    rcases h.whole rename (by decide) with hall | hnone
    · exact absurd (hall ⟨2, 1, utf8 "m"⟩ (by decide)) (by decide)
    · exact hnone ⟨0, 1, utf8 "m"⟩ (by decide) (by decide)

/-- One migration is applied as a whole. -/
theorem faithful_iff_separable_wrapped :
    Faithful (utf8 "n: i64") wrapped.fixes [⟨6, 0, utf8 "]"⟩, ⟨3, 0, utf8 "Mutex["⟩] (utf8 "n: Mutex[i64]") ↔
      Separable wrapped.fixes :=
  faithful_iff_separable (by decide) (by decide)
    (cmdFix_eq_applied (by decide) deduped_wrapped rfl le_rfl : cmdFix (fun _ => 0) _ wrapped false = _)

end Karac.Cli
