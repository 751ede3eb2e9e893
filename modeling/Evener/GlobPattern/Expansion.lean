/-
  The expansion of a pattern tree: what a success holds, and when there is none.
-/
import Evener.GlobPattern.Scan

namespace Evener.GlobPattern

open List
open Evener.Lib (Bytes)

/-! ## One round on the text -/

variable {pattern : Bytes} {p : Pattern}

theorem foundAt_passes {start stop : Nat}
    (h : hasTopLevelComma (slice pattern (start + 1) stop) ≠ true) :
    foundAt pattern start stop = none := if_neg h

theorem unwrappedAt_passes {start stop : Nat}
    (h : hasTopLevelComma (slice pattern (start + 1) stop) ≠ false) :
    unwrappedAt pattern start stop = none := if_pos (Bool.not_eq_false _ ▸ h)

theorem findExpandableGroup_none (hfits : p.Fits false) (h : p.splices true = none) :
    findExpandableGroup p.text = .ok none := by
  rw [findExpandableGroup, Pattern.lexemes_text, findGroupFrom_eq_scan]
  exact Pattern.scan_whole_none (fun _ _ => foundAt_passes) hfits h

theorem splitAlternatives_site (s : Site true) :
    splitAlternatives s.content = (s.first :: s.others.toList).map Pattern.text := by
  rw [splitAlternatives, Site.content, lexemes_group]
  apply splitFrom_group (Pattern.comma_notMem s.first_fits s.first_none)
  intro q hq
  exact Pattern.comma_notMem (Alternatives.fits_of_mem s.others_fits hq)
    (Alternatives.splices_of_mem s.others_none hq)

theorem findExpandableGroup_some {qs : List Pattern} (hfits : p.Fits false)
    (h : p.splices true = some qs) :
    ∃ start stop, findExpandableGroup p.text = .ok (some (start, stop)) ∧
      ((splitAlternatives (slice p.text (start + 1) stop)).map fun part =>
        p.text.take start ++ part ++ p.text.drop (stop + 1)) = qs.map Pattern.text := by
  obtain ⟨s, hs, hresults, hscan⟩ := Pattern.scan_whole_some (fun _ _ => foundAt_passes) hfits h
  refine ⟨s.start, s.stop, ?_, ?_⟩
  · rw [findExpandableGroup, Pattern.lexemes_text, findGroupFrom_eq_scan]
    apply hscan
    rw [← hs, foundAt, if_pos s.comma_at]
  · rw [← hs, Site.slice_text, Site.take_text, Site.drop_text, splitAlternatives_site, map_map]
    exact hresults

theorem unwrapSingleTermGroup_none (hfits : p.Fits false) (h : p.splices false = none) :
    unwrapSingleTermGroup p.text = none := by
  rw [unwrapSingleTermGroup, Pattern.lexemes_text, unwrapFrom_eq_scan]
  exact Pattern.scan_whole_none (fun _ _ => unwrappedAt_passes) hfits h

theorem unwrapSingleTermGroup_some {qs : List Pattern} (hfits : p.Fits false)
    (h : p.splices false = some qs) :
    ∃ q, qs = [q] ∧ unwrapSingleTermGroup p.text = some q.text := by
  obtain ⟨s, hs, hresults, hscan⟩ := Pattern.scan_whole_some (fun _ _ => unwrappedAt_passes) hfits h
  have hone : s.others = .nil := Alternatives.eq_nil_of_asked s.asked
  have hnot : ¬ hasTopLevelComma (slice s.text (s.start + 1) s.stop) = true := by
    rw [s.comma_at]
    decide
  rw [Site.results, hone, Alternatives.toList, map_singleton, eq_comm,
    map_eq_singleton_iff] at hresults
  obtain ⟨q, rfl, hq⟩ := hresults
  refine ⟨q, rfl, ?_⟩
  rw [unwrapSingleTermGroup, Pattern.lexemes_text, unwrapFrom_eq_scan]
  apply hscan
  rw [← hs, unwrappedAt, if_neg hnot, Site.slice_text, Site.take_text, Site.drop_text, Site.content,
    hone, hq]
  simp [Alternatives.text, Alternatives.tokens]

/-- What one round on the text of a pattern does. -/
theorem expandWithin_cases (left : Nat) (hfits : p.Fits false) :
    (∃ qs, p.splices true = some qs ∧
      expandWithin (left + 1) p.text = expandEach (expandWithin left) (qs.map Pattern.text) []) ∨
    (∃ q, p.splices true = none ∧ p.splices false = some [q] ∧
      expandWithin (left + 1) p.text = expandWithin left q.text) ∨
    (p.splices true = none ∧ p.splices false = none ∧
      expandWithin (left + 1) p.text = .ok [p.text]) := by
  rw [expandWithin]
  cases hmany : p.splices true with
  | some qs =>
    obtain ⟨start, stop, hfind, hparts⟩ := findExpandableGroup_some hfits hmany
    refine .inl ⟨qs, rfl, ?_⟩
    rw [hfind]
    dsimp only
    rw [hparts]
  | none =>
    refine .inr ?_
    rw [findExpandableGroup_none hfits hmany]
    dsimp only
    cases hone : p.splices false with
    | some qs =>
      obtain ⟨q, rfl, hunwrap⟩ := unwrapSingleTermGroup_some hfits hone
      refine .inl ⟨q, rfl, rfl, ?_⟩
      rw [hunwrap]
    | none =>
      refine .inr ⟨rfl, rfl, ?_⟩
      rw [unwrapSingleTermGroup_none hfits hone]

/-! ## What a success holds -/

/-- The parts of a group leave what each of them leaves. -/
theorem expandEach_ok {expandOne : Bytes → Except ExpandError (List Bytes)} :
    ∀ {candidates acc result : List Bytes}, expandEach expandOne candidates acc = .ok result →
    (∀ c ∈ candidates, ∃ r, expandOne c = .ok r) ∧
      ∀ b, b ∈ result ↔ b ∈ acc ∨ ∃ c ∈ candidates, ∃ r, expandOne c = .ok r ∧ b ∈ r
  | [], acc, result, h => by
    rw [expandEach] at h
    cases h
    simp
  | c :: cs, acc, result, h => by
    rw [expandEach] at h
    cases hc : expandOne c with
    | error err => rw [hc] at h; cases h
    | ok expanded =>
      rw [hc] at h
      dsimp only at h
      split at h
      · cases h
      · obtain ⟨hall, hmem⟩ := expandEach_ok h
        constructor
        · intro d hd
          rcases mem_cons.mp hd with rfl | hd
          · exact ⟨_, hc⟩
          · exact hall d hd
        · intro b
          rw [hmem, mem_append, exists_mem_cons_iff]
          constructor
          · rintro ((hb | hb) | hb)
            · exact .inl hb
            · exact .inr (.inl ⟨expanded, hc, hb⟩)
            · exact .inr (.inr hb)
          · rintro (hb | ⟨r, hr, hb⟩ | hb)
            · exact .inl (.inl hb)
            · rw [hc] at hr
              cases hr
              exact .inl (.inr hb)
            · exact .inr hb

theorem expandWithin_meaning : ∀ {left : Nat} {p : Pattern} {result : List Bytes}, p.Fits false →
    expandWithin left p.text = .ok result → ∀ b, b ∈ result ↔ b ∈ p.meaning
  | 0, _, _, _, h => by cases h
  | left + 1, p, result, hfits, h => by
    intro b
    obtain ⟨qs, hqs, hrun⟩ | ⟨q, -, hq, hrun⟩ | ⟨hmany, hone, hrun⟩ := expandWithin_cases left hfits
    · rw [hrun] at h
      obtain ⟨hall, hmem⟩ := expandEach_ok h
      rw [hmem, Pattern.splices_meaning b hqs]
      have hpart : ∀ q ∈ qs, (∃ r, expandWithin left q.text = .ok r ∧ b ∈ r) ↔ b ∈ q.meaning := by
        intro q hq
        obtain ⟨r, hr⟩ := hall q.text (mem_map_of_mem hq)
        rw [← expandWithin_meaning (Pattern.splices_fits hfits hqs q hq) hr b]
        constructor
        · rintro ⟨r', hr', hb⟩
          rw [hr] at hr'
          cases hr'
          exact hb
        · exact fun hb => ⟨r, hr, hb⟩
      simp only [not_mem_nil, false_or, mem_map, exists_exists_and_eq_and]
      exact exists_congr fun q => and_congr_right fun hq => hpart q hq
    · rw [hrun] at h
      have hq' := Pattern.splices_fits hfits hq q mem_cons_self
      rw [expandWithin_meaning hq' h b, Pattern.splices_meaning b hq]
      simp
    · rw [hrun] at h
      cases h
      rw [Pattern.meaning_eq_text hmany hone]

theorem mem_foldl_distinct (patterns acc : List Bytes) (b : Bytes) :
    b ∈ patterns.foldl (fun result candidate =>
      if candidate ∈ result then result else result ++ [candidate]) acc ↔
      b ∈ acc ∨ b ∈ patterns := by
  induction patterns generalizing acc with
  | nil => simp
  | cons c cs ih =>
    rw [foldl_cons, ih, mem_cons]
    split
    · constructor
      · rintro (hb | hb)
        · exact .inl hb
        · exact .inr (.inr hb)
      · rintro (hb | rfl | hb)
        · exact .inl hb
        · exact .inl ‹_›
        · exact .inr hb
    · rw [mem_append, mem_singleton, or_assoc]

theorem mem_distinct {patterns : List Bytes} {b : Bytes} : b ∈ distinct patterns ↔ b ∈ patterns := by
  rw [distinct, mem_foldl_distinct]
  simp

theorem nodup_foldl_distinct (patterns acc : List Bytes) (h : acc.Nodup) :
    (patterns.foldl (fun result candidate =>
      if candidate ∈ result then result else result ++ [candidate]) acc).Nodup := by
  induction patterns generalizing acc with
  | nil => exact h
  | cons c cs ih =>
    rw [foldl_cons]
    apply ih
    split
    · exact h
    · rename_i hnot
      have hsingle : [c].Nodup := nodup_cons.mpr ⟨not_mem_nil, nodup_nil⟩
      exact nodup_append.mpr ⟨h, hsingle, fun a ha b hb hab =>
        hnot (mem_singleton.mp hb ▸ hab ▸ ha)⟩

theorem nodup_distinct (patterns : List Bytes) : (distinct patterns).Nodup :=
  nodup_foldl_distinct patterns [] nodup_nil

theorem expand_eq_ok {result : List Bytes} (h : expand pattern = .ok result) :
    ∃ r, expandAt pattern 0 = .ok r ∧ distinct r = result := by
  unfold expand at h
  cases hr : expandAt pattern 0 with
  | error err => rw [hr] at h; cases h
  | ok r =>
    rw [hr] at h
    exact ⟨r, rfl, Except.ok.inj h⟩

/-! ## Texts without groups -/

theorem expand_groupless (hfits : p.Fits false) (hmany : p.splices true = none)
    (hone : p.splices false = none) : expand p.text = .ok [p.text] := by
  have hrun : expandAt p.text 0 = .ok [p.text] := by
    obtain ⟨qs, hqs, -⟩ | ⟨q, -, hq, -⟩ | ⟨-, -, hrun⟩ := expandWithin_cases maxExpansions hfits
    · rw [hmany] at hqs
      cases hqs
    · rw [hone] at hq
      cases hq
    · exact hrun
  rw [expand, hrun]
  rfl

/-- A meant text is the text of a tree without groups: by induction on the groups left. -/
theorem Pattern.groupless_of_mem_meaning {b : Bytes} : ∀ (n : Nat) {p : Pattern}, p.groups ≤ n →
    p.Fits false → b ∈ p.meaning →
    ∃ q : Pattern, q.Fits false ∧ q.splices true = none ∧ q.splices false = none ∧ q.text = b := by
  intro n
  induction n with
  | zero =>
    intro p hgroups hfits hb
    have hnone : ∀ many, p.splices many = none := by
      intro many
      cases h : p.splices many with
      | none => rfl
      | some qs =>
        obtain ⟨q, hq⟩ := exists_mem_of_ne_nil _ (Pattern.splices_ne_nil h)
        have hlt := Pattern.splices_groups h q hq
        omega
    rw [Pattern.meaning_eq_text (hnone true) (hnone false), mem_singleton] at hb
    exact ⟨p, hfits, hnone true, hnone false, hb.symm⟩
  | succ n ih =>
    intro p hgroups hfits hb
    have hround : ∀ many qs, p.splices many = some qs → ∃ q : Pattern, q.Fits false ∧
        q.splices true = none ∧ q.splices false = none ∧ q.text = b := by
      intro many qs hqs
      obtain ⟨q, hq, hbq⟩ := (Pattern.splices_meaning b hqs).mp hb
      have hlt := Pattern.splices_groups hqs q hq
      exact ih (by omega) (Pattern.splices_fits hfits hqs q hq) hbq
    cases hmany : p.splices true with
    | some qs => exact hround true qs hmany
    | none =>
      cases hone : p.splices false with
      | some qs => exact hround false qs hone
      | none =>
        rw [Pattern.meaning_eq_text hmany hone, mem_singleton] at hb
        exact ⟨p, hfits, hmany, hone, hb.symm⟩

theorem expand_meaning (t : PatternTree) (result : List Bytes) (h : expand t.text = .ok result) :
    (∀ b, b ∈ result ↔ b ∈ t.meaning) ∧ result.Nodup ∧ ∀ b ∈ result, expand b = .ok [b] := by
  obtain ⟨r, hr, rfl⟩ := expand_eq_ok h
  have hmeaning : ∀ b, b ∈ distinct r ↔ b ∈ t.meaning := by
    intro b
    rw [mem_distinct]
    exact expandWithin_meaning t.fits hr b
  refine ⟨hmeaning, nodup_distinct r, ?_⟩
  intro b hb
  obtain ⟨q, hfits, hmany, hone, rfl⟩ :=
    Pattern.groupless_of_mem_meaning _ (Nat.le_refl _) t.fits ((hmeaning b).mp hb)
  exact expand_groupless hfits hmany hone

/-- A plain byte. -/
def plainByte (b : UInt8)
    (h : b ≠ backslash ∧ b ≠ openBracket ∧ b ≠ openBrace ∧ b ≠ closeBrace := by decide) : Atom :=
  .byte b h

/-- `x{[,],{y,z}}`. -/
def nestedTree : PatternTree where
  root := .atom (plainByte 120) (.group (.atom (.charClass [.byte 44 (by decide)]) .nil)
    (.cons (.group (.atom (plainByte 121) .nil) (.cons (.atom (plainByte 122) .nil) .nil) .nil) .nil)
    .nil)
  fits := by
    simp only [Pattern.Fits, Alternatives.Fits, plainByte, Atom.text]
    decide

def nestedResult : List Bytes := [[120, 91, 44, 93], [120, 121], [120, 122]]

theorem nestedTree_meaning :
    (∀ b, b ∈ nestedResult ↔ b ∈ nestedTree.meaning) ∧ nestedResult.Nodup ∧
      ∀ b ∈ nestedResult, expand b = .ok [b] :=
  expand_meaning nestedTree nestedResult (by decide)

end Evener.GlobPattern
