/-
  Placement keeps every coalesced turn, the order of the fresh page and the order of the older
  page, and puts a retained turn after every anchor its older page puts before it.
-/
import Evener.TurnHistory.Partition
import Evener.TurnHistory.Place
import Mathlib.Data.List.Flatten
import Mathlib.Data.List.Induction

namespace Evener.TurnHistory

open Evener.Lib List

/-! ## Weaving -/

theorem takeOlder_append (prefer : Bool) (freshTurn : Option CoalescedTurn)
    (older : List CoalescedTurn) :
    (takeOlder prefer freshTurn older).1 ++ (takeOlder prefer freshTurn older).2 = older := by
  induction older with
  | nil => rfl
  | cons olderTurn older ih =>
    rw [takeOlder]
    split
    · simp only [cons_append, ih]
    · rfl

variable {g group : CoalescedTurn} {previous rank : Int} {boundaries : List Int} {i j : Nat}

section Weave

variable {p : CoalescedTurn → Bool} (prefer : Bool)

/-- A woven gap holds its two runs, each in its own order. -/
theorem weaveTurnGap_filter {fresh older : List CoalescedTurn} (hfresh : ∀ g ∈ fresh, p g = true)
    (holder : ∀ g ∈ older, p g = false) :
    (weaveTurnGap prefer fresh older).filter p = fresh ∧
      ((weaveTurnGap prefer fresh older).filter fun g => !p g) = older := by
  induction fresh generalizing older with
  | nil =>
    refine ⟨filter_eq_nil_iff.mpr fun g hg => ?_, filter_eq_self.mpr fun g hg => ?_⟩
    · rw [holder g hg]
      exact Bool.false_ne_true
    · rw [holder g hg]
      rfl
  | cons freshTurn fresh ih =>
    have hsplit := takeOlder_append prefer (comparisonTurn (freshTurn :: fresh)) older
    rw [weaveTurnGap]
    generalize takeOlder prefer (comparisonTurn (freshTurn :: fresh)) older = taken at hsplit
    subst hsplit
    obtain ⟨hrest, hrest'⟩ := ih (fun g hg => hfresh g (mem_cons_of_mem _ hg))
      fun g hg => holder g (mem_append_right _ hg)
    have htaken : taken.1.filter p = [] := filter_eq_nil_iff.mpr fun g hg => by
      rw [holder g (mem_append_left _ hg)]
      exact Bool.false_ne_true
    have htaken' : (taken.1.filter fun g => !p g) = taken.1 :=
      filter_eq_self.mpr fun g hg => by
        rw [holder g (mem_append_left _ hg)]
        rfl
    have hhead := hfresh freshTurn mem_cons_self
    rw [filter_append, filter_append, htaken, htaken', filter_cons_of_pos hhead,
      filter_cons_of_neg (by simp [hhead]), hrest, hrest']
    exact ⟨rfl, rfl⟩

theorem mem_weaveTurnGap {fresh older : List CoalescedTurn} (hg : g ∈ fresh ∨ g ∈ older) :
    g ∈ weaveTurnGap prefer fresh older := by
  induction fresh generalizing older with
  | nil => exact hg.resolve_left not_mem_nil
  | cons freshTurn fresh ih =>
    have hsplit := takeOlder_append prefer (comparisonTurn (freshTurn :: fresh)) older
    rw [weaveTurnGap]
    generalize takeOlder prefer (comparisonTurn (freshTurn :: fresh)) older = taken at hsplit
    subst hsplit
    rw [mem_append, mem_cons]
    rcases hg with hg | hg
    · rcases mem_cons.mp hg with rfl | hg
      · exact Or.inr (Or.inl rfl)
      · exact Or.inr (Or.inr (ih (Or.inl hg)))
    · rcases mem_append.mp hg with hg | hg
      · exact Or.inl hg
      · exact Or.inr (Or.inr (ih (Or.inr hg)))

end Weave

/-! ## The loop over the boundaries -/

/-- Boundaries that increase from `previous` and end with `last`. -/
structure Boundaries (previous last : Int) (boundaries : List Int) : Prop where
  increasing : boundaries.Pairwise (· < ·)
  above : ∀ b ∈ boundaries, previous < b
  ends : last ∈ boundaries ∧ ∀ b ∈ boundaries, b ≤ last

theorem Boundaries.tail {last next : Int} (h : Boundaries previous last (next :: boundaries))
    (hlt : next < last) :
    Boundaries next last boundaries where
  increasing := (pairwise_cons.mp h.increasing).2
  above := (pairwise_cons.mp h.increasing).1
  ends := by
    refine ⟨?_, fun b hb => h.ends.2 b (mem_cons_of_mem _ hb)⟩
    rcases mem_cons.mp h.ends.1 with heq | hmem
    · omega
    · exact hmem

theorem Boundaries.tail_nil {last : Int} (h : Boundaries previous last (last :: boundaries)) :
    boundaries = [] := by
  refine eq_nil_iff_forall_not_mem.mpr fun b hb => ?_
  have hlt := (pairwise_cons.mp h.increasing).1 b hb
  have hle := h.ends.2 b (mem_cons_of_mem _ hb)
  omega

/-- The keys of the gap runs the loop reads. -/
def gapKeys (previous : Int) : List Int → List Int
  | [] => []
  | next :: boundaries => (if previous = -1 then 0 else next) :: boundaries

section Loop

variable {p : CoalescedTurn → Bool} {fresh : List CoalescedTurn}
  {gapRun : Int → List CoalescedTurn}

/-- The loop from `previous` on holds the fresh turns in their order, and the retained ones gap by
    gap. -/
theorem placeFrom_filter (hfresh : ∀ g ∈ fresh, p g = true)
    (hretained : ∀ gap, ∀ g ∈ gapRun gap, p g = false) (hprevious : -1 ≤ previous)
    (h : Boundaries previous fresh.length boundaries) :
    (placeFrom fresh gapRun previous boundaries).filter p = fresh.drop (previous + 1).toNat ∧
      ((placeFrom fresh gapRun previous boundaries).filter fun g => !p g) =
        (gapKeys previous boundaries).flatMap gapRun := by
  induction boundaries generalizing previous with
  | nil => exact absurd h.ends.1 not_mem_nil
  | cons next boundaries ih =>
    have habove := h.above next mem_cons_self
    have hle := h.ends.2 next mem_cons_self
    have hslice : ∀ g ∈ (fresh.take next.toNat).drop (previous + 1).toNat, p g = true :=
      fun g hg => hfresh g (mem_of_mem_take (mem_of_mem_drop hg))
    have hweave := weaveTurnGap_filter (decide (previous = -1)) hslice
      (hretained (if previous = -1 then 0 else next))
    rw [placeFrom, filter_append, filter_append, filter_append, filter_append,
      hweave.1, hweave.2, gapKeys, flatMap_cons]
    by_cases hlast : next = fresh.length
    · subst hlast
      rw [h.tail_nil]
      simp [placeFrom]
    · have hlt : next < fresh.length := by omega
      have hnat : next.toNat < fresh.length := by omega
      have hanchor : p fresh[next.toNat] = true := hfresh _ (getElem_mem hnat)
      obtain ⟨hfreshRest, hretainedRest⟩ := ih (by omega) (h.tail hlt)
      rw [if_pos hlt, hfreshRest, hretainedRest, getElem?_eq_getElem hnat]
      constructor
      · have hnext : (next + 1).toNat = next.toNat + 1 := by omega
        have hdrop : fresh.drop (previous + 1).toNat =
            (fresh.take next.toNat).drop (previous + 1).toNat ++ fresh.drop next.toNat := by
          conv_lhs => rw [← take_append_drop next.toNat fresh]
          rw [drop_append_of_le_length (by rw [length_take]; omega)]
        rw [hdrop, hnext, drop_eq_getElem_cons hnat]
        simp [hanchor]
      · -- past the first boundary the keys are the boundaries themselves
        have hkeys : gapKeys next boundaries = boundaries := by
          cases boundaries with
          | nil => rfl
          | cons b boundaries => rw [gapKeys, if_neg (by omega)]
        rw [hkeys]
        simp [hanchor]

/-- Past the first boundary, every gap of a boundary is read. -/
theorem mem_placeFrom {gap : Int} (hprevious : 0 ≤ previous) (habove : ∀ b ∈ boundaries, 0 ≤ b)
    (hgap : gap ∈ boundaries) (hg : g ∈ gapRun gap) :
    g ∈ placeFrom fresh gapRun previous boundaries := by
  induction boundaries generalizing previous with
  | nil => exact absurd hgap not_mem_nil
  | cons next boundaries ih =>
    rw [placeFrom]
    rcases mem_cons.mp hgap with rfl | hgap
    · refine mem_append_left _ (mem_append_left _ (mem_weaveTurnGap _ (Or.inr ?_)))
      rw [if_neg (by omega)]
      exact hg
    · exact mem_append_right _ (ih (habove next mem_cons_self)
        (fun b hb => habove b (mem_cons_of_mem _ hb)) hgap)

/-- An anchor stands before the turns of every gap above it. -/
theorem sublist_placeFrom (hprevious : -1 ≤ previous)
    (h : Boundaries previous fresh.length boundaries) {anchor : Nat} {gap : Int}
    (hanchor : (anchor : Int) ∈ boundaries) (hgap : gap ∈ boundaries) (hlt : (anchor : Int) < gap)
    {a : CoalescedTurn} (ha : fresh[anchor]? = some a) (hg : g ∈ gapRun gap) :
    [a, g].Sublist (placeFrom fresh gapRun previous boundaries) := by
  induction boundaries generalizing previous with
  | nil => exact absurd hgap not_mem_nil
  | cons next boundaries ih =>
    have habove := h.above next mem_cons_self
    have hhead := (pairwise_cons.mp h.increasing).1
    have hrest : ∀ b ∈ boundaries, 0 ≤ b := fun b hb => by
      have := hhead b hb
      omega
    have hgap' : gap ∈ boundaries := by
      rcases mem_cons.mp hgap with rfl | hgap
      · rcases mem_cons.mp hanchor with heq | hmem
        · omega
        · have := hhead _ hmem
          omega
      · exact hgap
    have hnextlt : next < fresh.length := by
      have := hhead gap hgap'
      have := h.ends.2 gap hgap
      omega
    rw [placeFrom]
    rcases mem_cons.mp hanchor with heq | hmem
    · subst heq
      have hfirst : [a].Sublist (if (anchor : Int) < fresh.length then
          fresh[(anchor : Int).toNat]?.toList else []) := by
        rw [if_pos hnextlt, Int.toNat_natCast, ha]
        exact List.Sublist.refl _
      have hsecond : [g].Sublist (placeFrom fresh gapRun anchor boundaries) :=
        singleton_sublist.mpr (mem_placeFrom (by omega) hrest hgap' hg)
      have hboth := hfirst.append hsecond
      exact hboth.trans ((sublist_append_right _ _).append_right _)
    · exact (ih (by omega) (h.tail hnextlt) hmem hgap').trans (sublist_append_right _ _)

end Loop

/-! ## Ranks and gaps -/

theorem previousAnchorRank_ge {ranks : List Int} (hj : j < i) (hrank : ranks[j]? = some rank) :
    rank ≤ previousAnchorRank ranks i := by
  have hmem : rank ∈ ranks.take i := by
    rw [mem_iff_getElem?]
    exact ⟨j, by rw [getElem?_take_of_lt hj, hrank]⟩
  exact (foldl_max_spec (ranks.take i) (-1)).2.1 rank hmem

theorem previousAnchorRank_mem (ranks : List Int) (i : Nat) :
    previousAnchorRank ranks i = -1 ∨ previousAnchorRank ranks i ∈ ranks :=
  (foldl_max_spec (ranks.take i) (-1)).2.2.imp id mem_of_mem_take

theorem neg_one_le_previousAnchorRank (ranks : List Int) (i : Nat) :
    -1 ≤ previousAnchorRank ranks i := (foldl_max_spec (ranks.take i) (-1)).1

theorem previousAnchorRank_mono {ranks : List Int} (hij : i ≤ j) :
    previousAnchorRank ranks i ≤ previousAnchorRank ranks j := by
  rcases (foldl_max_spec (ranks.take i) (-1)).2.2 with heq | hmem
  · rw [previousAnchorRank, heq]
    exact neg_one_le_previousAnchorRank ranks j
  · have hsub : ranks.take i ⊆ ranks.take j := take_subset_take_left ranks hij
    exact (foldl_max_spec (ranks.take j) (-1)).2.1 _ (hsub hmem)

/-- The least rank above `previous`, or that there is none. -/
def IsLeastAbove (previous : Int) (ranks : List Int) : Option Int → Prop
  | none => ∀ other ∈ ranks, ¬ previous < other
  | some rank => rank ∈ ranks ∧ previous < rank ∧ ∀ other ∈ ranks, previous < other → rank ≤ other

theorem leastAbove_spec (previous : Int) (ranks : List Int) :
    IsLeastAbove previous ranks (leastAbove previous ranks) := by
  induction ranks using List.reverseRecOn with
  | nil => exact fun _ h => absurd h not_mem_nil
  | append_singleton ranks x ih =>
    unfold leastAbove at ih ⊢
    rw [foldl_append, foldl_cons, foldl_nil]
    generalize ranks.foldl _ none = earliest at ih
    cases earliest with
    | none =>
      split
      · next hx =>
        refine ⟨mem_append_right _ (mem_singleton_self x), hx.1, fun other hother hlt => ?_⟩
        rcases mem_append.mp hother with hother | hother
        · exact absurd hlt (ih other hother)
        · exact (mem_singleton.mp hother).ge
      · next hx =>
        intro other hother hlt
        rcases mem_append.mp hother with hother | hother
        · exact ih other hother hlt
        · rw [mem_singleton.mp hother] at hlt
          exact hx ⟨hlt, Or.inl rfl⟩
    | some rank =>
      obtain ⟨hmem, habove, hleast⟩ := ih
      split
      · next hx =>
        have hbelow : x < rank := by simpa using hx.2
        refine ⟨mem_append_right _ (mem_singleton_self x), hx.1, fun other hother hlt => ?_⟩
        rcases mem_append.mp hother with hother | hother
        · exact hbelow.le.trans (hleast other hother hlt)
        · exact (mem_singleton.mp hother).ge
      · next hx =>
        refine ⟨mem_append_left _ hmem, habove, fun other hother hlt => ?_⟩
        rcases mem_append.mp hother with hother | hother
        · exact hleast other hother hlt
        · rw [mem_singleton.mp hother] at hlt ⊢
          by_contra hlt'
          exact hx ⟨hlt, Or.inr (by simpa using hlt')⟩

section Gaps

variable {ranks : List Int} {freshCount : Nat}

/-- Every rank is `-1` or that of a fresh group. -/
def RanksBelow (ranks : List Int) (freshCount : Nat) : Prop :=
  ∀ rank ∈ ranks, rank < freshCount

/-- The gap of a retained group: the first one, one at an anchor, or the last one. -/
theorem gapAt_cases (i : Nat) :
    (previousAnchorRank ranks i = -1 ∧ gapAt ranks freshCount i = 0) ∨
    (0 ≤ previousAnchorRank ranks i ∧
      ((gapAt ranks freshCount i ∈ ranks.drop (i + 1) ∧
          previousAnchorRank ranks i < gapAt ranks freshCount i ∧
          ∀ other ∈ ranks.drop (i + 1), previousAnchorRank ranks i < other →
            gapAt ranks freshCount i ≤ other) ∨
        (gapAt ranks freshCount i = freshCount ∧
          ∀ other ∈ ranks.drop (i + 1), ¬ previousAnchorRank ranks i < other))) := by
  have hge := neg_one_le_previousAnchorRank ranks i
  unfold gapAt
  by_cases hnone : previousAnchorRank ranks i = -1
  · exact Or.inl ⟨hnone, if_pos hnone⟩
  · refine Or.inr ⟨by omega, ?_⟩
    simp only [if_neg hnone]
    have hspec := leastAbove_spec (previousAnchorRank ranks i) (ranks.drop (i + 1))
    cases hleast : leastAbove (previousAnchorRank ranks i) (ranks.drop (i + 1)) with
    | none =>
      rw [hleast] at hspec
      exact Or.inr ⟨rfl, hspec⟩
    | some rank =>
      rw [hleast] at hspec
      exact Or.inl hspec

theorem gapAt_nonneg (i : Nat) : 0 ≤ gapAt ranks freshCount i := by
  rcases @gapAt_cases ranks freshCount i with ⟨_, h⟩ | ⟨hprevious, ⟨_, hlt, _⟩ | ⟨h, _⟩⟩
  · omega
  · omega
  · omega

/-- Later retained groups go to later gaps. -/
theorem gapAt_mono (hbelow : RanksBelow ranks freshCount) (hij : i ≤ j) :
    gapAt ranks freshCount i ≤ gapAt ranks freshCount j := by
  have hmono : previousAnchorRank ranks i ≤ previousAnchorRank ranks j :=
    previousAnchorRank_mono hij
  have hdrop : ranks.drop (j + 1) ⊆ ranks.drop (i + 1) :=
    drop_subset_drop_left ranks (by omega)
  have hnonneg := @gapAt_nonneg ranks freshCount j
  rcases @gapAt_cases ranks freshCount i with ⟨_, hi⟩ | ⟨hi, ⟨hmem, hlt, hleast⟩ | ⟨heq, hnone⟩⟩
  · omega
  · rcases @gapAt_cases ranks freshCount j with ⟨hj, _⟩ | ⟨_, ⟨hmemj, hltj, _⟩ | ⟨heqj, _⟩⟩
    · omega
    · exact hleast _ (hdrop hmemj) (by omega)
    · have := hbelow _ (mem_of_mem_drop hmem)
      omega
  · rcases @gapAt_cases ranks freshCount j with ⟨hj, _⟩ | ⟨_, ⟨hmemj, hltj, _⟩ | ⟨heqj, _⟩⟩
    · omega
    · exact absurd (by omega) (hnone _ (hdrop hmemj))
    · omega

end Gaps

/-! ## The ranks of the older turns -/

theorem foldl_set_spec (indexes : List Nat) (value : Int) (ranks : List Int) :
    (indexes.foldl (fun ranks index => ranks.set index value) ranks).length = ranks.length ∧
    ∀ j, (indexes.foldl (fun ranks index => ranks.set index value) ranks)[j]? =
      if j ∈ indexes ∧ j < ranks.length then some value else ranks[j]? := by
  induction indexes generalizing ranks with
  | nil => exact ⟨rfl, fun j => by simp⟩
  | cons index indexes ih =>
    rw [foldl_cons]
    obtain ⟨hlength, hget⟩ := ih (ranks.set index value)
    rw [length_set] at hlength hget
    refine ⟨hlength, fun j => ?_⟩
    rw [hget j, getElem?_set]
    by_cases hj : j < ranks.length
    · by_cases hmem : j ∈ indexes
      · simp [hmem, hj]
      · by_cases heq : index = j
        · simp [heq, hj]
        · have hne : ¬ j = index := fun h => heq h.symm
          simp [hmem, heq, hne]
    · have hnone : ranks[j]? = none := getElem?_eq_none (by omega)
      by_cases heq : index = j
      · simp [heq, hj]
      · simp [heq, hj]

/-- What a table of ranks says of the groups `entries` written into it. -/
structure RankTable (entries : List (CoalescedTurn × Nat)) (olderCount : Nat) (ranks : List Int) :
    Prop where
  length : ranks.length = olderCount
  get : ∀ j < olderCount,
    (ranks[j]? = some (-1) ∧ ∀ entry ∈ entries, j ∉ entry.1.olderIndexes) ∨
    ∃ entry ∈ entries, j ∈ entry.1.olderIndexes ∧ ranks[j]? = some (entry.2 : Int)

theorem rankTable_oldAnchorFreshIndexes (fresh : List CoalescedTurn) (olderCount : Nat) :
    RankTable fresh.zipIdx olderCount (oldAnchorFreshIndexes fresh olderCount) := by
  unfold oldAnchorFreshIndexes
  induction fresh.zipIdx using List.reverseRecOn with
  | nil =>
    refine ⟨length_replicate, fun j hj => Or.inl ⟨?_, fun _ h => absurd h not_mem_nil⟩⟩
    simp [hj]
  | append_singleton entries entry ih =>
    rw [foldl_append, foldl_cons, foldl_nil]
    generalize entries.foldl _ _ = ranks at ih
    obtain ⟨hlength, hget⟩ := foldl_set_spec entry.1.olderIndexes entry.2 ranks
    refine ⟨hlength.trans ih.length, fun j hj => ?_⟩
    rw [hget j]
    by_cases hmem : j ∈ entry.1.olderIndexes
    · rw [if_pos ⟨hmem, by rw [ih.length]; exact hj⟩]
      exact Or.inr ⟨entry, mem_append_right _ (mem_singleton_self _), hmem, rfl⟩
    · rw [if_neg fun h => hmem h.1]
      rcases ih.get j hj with ⟨hnone, hold⟩ | ⟨other, hother, hin, hvalue⟩
      · refine Or.inl ⟨hnone, fun e he => ?_⟩
        rcases mem_append.mp he with he | he
        · exact hold e he
        · rw [mem_singleton.mp he]
          exact hmem
      · exact Or.inr ⟨other, mem_append_left _ hother, hin, hvalue⟩

theorem mem_anchorRanks {fresh : List CoalescedTurn} {k : Nat} (hk : fresh[k]? = some group)
    (hne : group.olderIndexes ≠ []) : (k : Int) ∈ anchorRanks fresh := by
  refine mem_map.mpr ⟨(group, k), mem_filter.mpr ⟨?_, by simpa using hne⟩, rfl⟩
  exact mem_zipIdx_iff_getElem?.mpr hk

theorem anchorRanks_spec {fresh : List CoalescedTurn} (h : rank ∈ anchorRanks fresh) :
    0 ≤ rank ∧ rank < fresh.length := by
  obtain ⟨entry, hentry, rfl⟩ := mem_map.mp h
  have hget := mem_zipIdx_iff_getElem?.mp (mem_of_mem_filter hentry)
  have hlt := (List.getElem?_eq_some_iff.mp hget).1
  exact ⟨by omega, by omega⟩

theorem anchorRanks_increasing (fresh : List CoalescedTurn) :
    (anchorRanks fresh).Pairwise (· < ·) := by
  have hindexes : (fresh.zipIdx.map Prod.snd).Pairwise (· < ·) := by
    rw [zipIdx_map_snd]
    exact pairwise_lt_range'
  refine pairwise_map.mpr ?_
  refine ((pairwise_map.mp hindexes).sublist filter_sublist).imp ?_
  intro a b hab
  omega

/-- The boundaries of the placement loop. -/
theorem boundaries_anchorRanks (fresh : List CoalescedTurn) :
    Boundaries (-1) fresh.length (anchorRanks fresh ++ [(fresh.length : Int)]) where
  increasing := by
    refine pairwise_append.mpr ⟨anchorRanks_increasing fresh, pairwise_singleton _ _, ?_⟩
    intro a ha b hb
    rw [mem_singleton.mp hb]
    exact (anchorRanks_spec ha).2
  above := by
    intro b hb
    rcases mem_append.mp hb with hb | hb
    · have := anchorRanks_spec hb
      omega
    · rw [mem_singleton.mp hb]
      omega
  ends := by
    refine ⟨mem_append_right _ (mem_singleton_self _), fun b hb => ?_⟩
    rcases mem_append.mp hb with hb | hb
    · have := anchorRanks_spec hb
      omega
    · exact (mem_singleton.mp hb).le

/-- A rank that is not `-1` is that of an anchor. -/
theorem mem_anchorRanks_of_rank {fresh : List CoalescedTurn} {olderCount : Nat}
    (h : rank ∈ oldAnchorFreshIndexes fresh olderCount) : rank = -1 ∨ rank ∈ anchorRanks fresh := by
  have htable := rankTable_oldAnchorFreshIndexes fresh olderCount
  obtain ⟨j, hj⟩ := mem_iff_getElem?.mp h
  have hlt : j < olderCount := by
    have := (List.getElem?_eq_some_iff.mp hj).1
    rwa [htable.length] at this
  rcases htable.get j hlt with ⟨hnone, _⟩ | ⟨entry, hentry, hmem, hvalue⟩
  · rw [hj] at hnone
    exact Or.inl (Option.some.inj hnone)
  · rw [hj] at hvalue
    rw [Option.some.inj hvalue]
    exact Or.inr (mem_anchorRanks (mem_zipIdx_iff_getElem?.mp hentry)
      (ne_nil_of_mem hmem))

theorem ranksBelow_oldAnchorFreshIndexes (fresh : List CoalescedTurn) (olderCount : Nat) :
    RanksBelow (oldAnchorFreshIndexes fresh olderCount) fresh.length := by
  intro rank hrank
  rcases mem_anchorRanks_of_rank hrank with rfl | hanchor
  · omega
  · exact (anchorRanks_spec hanchor).2

/-- Every gap of a retained group is read by the loop. -/
theorem gapAt_mem_gapKeys (fresh : List CoalescedTurn) (olderCount i : Nat) :
    gapAt (oldAnchorFreshIndexes fresh olderCount) fresh.length i ∈
      gapKeys (-1) (anchorRanks fresh ++ [(fresh.length : Int)]) := by
  generalize hranks : oldAnchorFreshIndexes fresh olderCount = ranks
  have hanchor : ∀ {rank}, rank ∈ ranks → 0 ≤ rank → rank ∈ anchorRanks fresh := by
    intro rank hrank hnonneg
    rw [← hranks] at hrank
    rcases mem_anchorRanks_of_rank hrank with rfl | h
    · omega
    · exact h
  -- a gap above an anchor is a boundary behind the first one
  have htail : ∀ {previous gap : Int}, previous ∈ anchorRanks fresh → previous < gap →
      gap ∈ anchorRanks fresh ++ [(fresh.length : Int)] →
      gap ∈ gapKeys (-1) (anchorRanks fresh ++ [(fresh.length : Int)]) := by
    intro previous gap hprevious hlt hgap
    have hincreasing := (boundaries_anchorRanks fresh).increasing
    have hmem : previous ∈ anchorRanks fresh ++ [(fresh.length : Int)] :=
      mem_append_left _ hprevious
    cases hb : anchorRanks fresh ++ [(fresh.length : Int)] with
    | nil =>
      rw [hb] at hgap
      exact absurd hgap not_mem_nil
    | cons first rest =>
      rw [hb] at hgap hmem hincreasing
      refine mem_cons_of_mem _ ((mem_cons.mp hgap).resolve_left ?_)
      intro heq
      rcases mem_cons.mp hmem with heq' | hmem
      · omega
      · have := (pairwise_cons.mp hincreasing).1 previous hmem
        omega
  rcases @gapAt_cases ranks fresh.length i with ⟨_, hzero⟩ | ⟨hprevious, hrest⟩
  · rw [hzero]
    cases hb : anchorRanks fresh ++ [(fresh.length : Int)] with
    | nil => exact absurd hb (by simp)
    | cons first rest => exact mem_cons_self
  · have hmem : previousAnchorRank ranks i ∈ anchorRanks fresh := by
      rcases previousAnchorRank_mem ranks i with h | h
      · omega
      · exact hanchor h hprevious
    rcases hrest with ⟨hgap, hlt, _⟩ | ⟨hgap, _⟩
    · exact htail hmem hlt (mem_append_left _ (hanchor (mem_of_mem_drop hgap) (by omega)))
    · refine htail hmem ?_ ?_
      · rw [hgap]
        exact (anchorRanks_spec hmem).2
      · rw [hgap]
        exact mem_append_right _ (mem_singleton_self _)

theorem gapKeys_increasing (fresh : List CoalescedTurn) :
    (gapKeys (-1) (anchorRanks fresh ++ [(fresh.length : Int)])).Pairwise (· < ·) := by
  have h := boundaries_anchorRanks fresh
  cases hb : anchorRanks fresh ++ [(fresh.length : Int)] with
  | nil => exact List.Pairwise.nil
  | cons first rest =>
    rw [hb] at h
    obtain ⟨hfirst, hrest⟩ := pairwise_cons.mp h.increasing
    have habove := h.above first mem_cons_self
    rw [gapKeys, if_pos rfl]
    refine pairwise_cons.mpr ⟨fun b hb => ?_, hrest⟩
    have := hfirst b hb
    omega

/-! ## Coalesced groups -/

/-- What placement relies on: the groups share no input turn, and none is empty. -/
structure Placeable (groups : List CoalescedTurn) (olderCount : Nat) : Prop where
  olderNodup : (groups.flatMap CoalescedTurn.olderIndexes).Nodup
  freshNodup : (groups.flatMap CoalescedTurn.freshIndexes).Nodup
  olderBelow : ∀ group ∈ groups, ∀ i ∈ group.olderIndexes, i < olderCount
  nonempty : ∀ group ∈ groups, group.hasFresh = false → group.olderIndexes ≠ []

theorem mem_members_older : (FragmentSource.older, i) ∈ group.members ↔ i ∈ group.olderIndexes := by
  simp [CoalescedTurn.members]

theorem mem_members_fresh : (FragmentSource.fresh, i) ∈ group.members ↔ i ∈ group.freshIndexes := by
  simp [CoalescedTurn.members]

theorem placeable_coalesceTurnFragments (context : Bool) (older fresh : List TurnModel) :
    Placeable (coalesceTurnFragments context older fresh) older.length := by
  have hperm := coalesceTurnFragments_members context older fresh
  have hnodup := nodup_flatMap.mp (hperm.nodup_iff.mpr (nodup_inputKeys older fresh))
  refine ⟨?_, ?_, ?_, ?_⟩
  · refine nodup_flatMap.mpr ⟨fun group hgroup => ?_, hnodup.2.imp ?_⟩
    · exact ((nodup_append.mp (hnodup.1 group hgroup)).1).of_map
    · intro group group' hdisjoint i hi hi'
      exact hdisjoint ((mem_members_older).mpr hi) ((mem_members_older).mpr hi')
  · refine nodup_flatMap.mpr ⟨fun group hgroup => ?_, hnodup.2.imp ?_⟩
    · exact ((nodup_append.mp (hnodup.1 group hgroup)).2.1).of_map
    · intro group group' hdisjoint i hi hi'
      exact hdisjoint ((mem_members_fresh).mpr hi) ((mem_members_fresh).mpr hi')
  · intro group hgroup i hi
    have hmem := hperm.mem_iff.mp (mem_flatMap.mpr ⟨group, hgroup, (mem_members_older).mpr hi⟩)
    simpa [inputKeys] using hmem
  · intro turn hturn hfresh hnil
    obtain ⟨group, hgroup, hcoalesces⟩ :=
      exists_of_forall₂_right (coalesceTurnFragments_forall₂ context older fresh) hturn
    have hempty : turn.members = [] := by
      have hnone : turn.freshIndexes = [] := by simpa [CoalescedTurn.hasFresh] using hfresh
      simp [CoalescedTurn.members, hnil, hnone]
    have hfragments := hcoalesces.members_perm
    rw [hempty] at hfragments
    have := map_eq_nil_iff.mp (nil_perm.mp hfragments)
    exact (grouped_orderedGroups older fresh).nonempty group hgroup this

theorem index_le_of_order {older fresh : List TurnModel} {f g : TurnFragment}
    (hf : f ∈ inputFragments older fresh) (hg : g ∈ inputFragments older fresh)
    (hsource : f.source = g.source) (hle : f.order ≤ g.order) : f.index ≤ g.index := by
  rcases mem_append.mp hf with hf | hf
  · rcases mem_append.mp hg with hg | hg
    · obtain ⟨entry, _, rfl⟩ := mem_map.mp hf
      obtain ⟨entry', _, rfl⟩ := mem_map.mp hg
      exact hle
    · obtain ⟨entry, _, rfl⟩ := mem_map.mp hf
      obtain ⟨entry', _, rfl⟩ := mem_map.mp hg
      cases hsource
  · rcases mem_append.mp hg with hg | hg
    · obtain ⟨entry, _, rfl⟩ := mem_map.mp hf
      obtain ⟨entry', _, rfl⟩ := mem_map.mp hg
      cases hsource
    · obtain ⟨entry, _, rfl⟩ := mem_map.mp hf
      obtain ⟨entry', _, rfl⟩ := mem_map.mp hg
      exact Nat.le_of_add_le_add_left hle

/-- The index lists of a coalesced turn increase. -/
theorem coalesceTurnFragments_sorted (context : Bool) (older fresh : List TurnModel) :
    ∀ group ∈ coalesceTurnFragments context older fresh,
      group.olderIndexes.Pairwise (· < ·) ∧ group.freshIndexes.Pairwise (· < ·) := by
  intro turn hturn
  have hplaceable := placeable_coalesceTurnFragments context older fresh
  have hgrouped := grouped_orderedGroups older fresh
  obtain ⟨group, hgroup, hcoalesces⟩ :=
    exists_of_forall₂_right (coalesceTurnFragments_forall₂ context older fresh) hturn
  have hside : ∀ source, ((fragmentsOf source group).map TurnFragment.index).Pairwise (· ≤ ·) := by
    intro source
    refine pairwise_map.mpr ?_
    refine ((hgrouped.ordered group hgroup).sublist filter_sublist).imp_of_mem ?_
    intro f g hf hg hfg
    obtain ⟨hf, hfs⟩ := mem_fragmentsOf.mp hf
    obtain ⟨hg, hgs⟩ := mem_fragmentsOf.mp hg
    have hfIn := hgrouped.perm.mem_iff.mp (mem_flatMap.mpr ⟨group, hgroup, hf⟩)
    have hgIn := hgrouped.perm.mem_iff.mp (mem_flatMap.mpr ⟨group, hgroup, hg⟩)
    exact index_le_of_order hfIn hgIn (hfs.trans hgs.symm) hfg
  have hstrict : ∀ {l : List Nat}, l.Pairwise (· ≤ ·) → l.Nodup → l.Pairwise (· < ·) :=
    fun hle hnodup => (hle.and hnodup).imp fun h => lt_of_le_of_ne h.1 h.2
  refine ⟨hstrict ?_ ((nodup_flatMap.mp hplaceable.olderNodup).1 turn hturn),
    hstrict ?_ ((nodup_flatMap.mp hplaceable.freshNodup).1 turn hturn)⟩
  · rw [hcoalesces.older]
    exact hside .older
  · rw [hcoalesces.fresh]
    exact hside .fresh

section Placed

variable {groups : List CoalescedTurn} {olderCount : Nat}

theorem mem_freshGroups : g ∈ freshGroups groups ↔ g ∈ groups ∧ g.hasFresh = true := by
  rw [freshGroups, mem_sortBy, mem_filter]

theorem mem_retainedGroups : g ∈ retainedGroups groups ↔ g ∈ groups ∧ g.hasFresh = false := by
  rw [retainedGroups, mem_sortBy, mem_filter, Bool.not_eq_true']

/-- A sorted selection of the groups shares no index either. -/
theorem nodup_sortBy_filter {key : CoalescedTurn → Nat} {p : CoalescedTurn → Bool}
    {f : CoalescedTurn → List Nat} (h : (groups.flatMap f).Nodup) :
    ((sortBy key (groups.filter p)).flatMap f).Nodup := by
  have hperm : ((sortBy key (groups.filter p)).flatMap f).Perm ((groups.filter p).flatMap f) :=
    (sortBy_perm _).flatMap_right f
  exact hperm.nodup_iff.mpr (h.sublist (filter_sublist.flatMap f))

/-- An older turn belongs to one fresh group only. -/
theorem rank_unique (h : Placeable groups olderCount) {k k' : Nat} {g' : CoalescedTurn}
    (hk : (freshGroups groups)[k]? = some g) (hk' : (freshGroups groups)[k']? = some g')
    (hj : j ∈ g.olderIndexes) (hj' : j ∈ g'.olderIndexes) : k = k' := by
  have hnodup : ((freshGroups groups).flatMap CoalescedTurn.olderIndexes).Nodup :=
    nodup_sortBy_filter h.olderNodup
  have hdisjoint := (nodup_flatMap.mp hnodup).2
  obtain ⟨hlt, rfl⟩ := List.getElem?_eq_some_iff.mp hk
  obtain ⟨hlt', rfl⟩ := List.getElem?_eq_some_iff.mp hk'
  rcases Nat.lt_trichotomy k k' with hlt'' | heq | hlt''
  · exact absurd hj' (pairwise_iff_getElem.mp hdisjoint k k' hlt hlt' hlt'' hj)
  · exact heq
  · exact absurd hj (pairwise_iff_getElem.mp hdisjoint k' k hlt' hlt hlt'' hj')

/-- The gap of a retained group. -/
def gapOf (groups : List CoalescedTurn) (olderCount : Nat) (g : CoalescedTurn) : Int :=
  gapAt (oldAnchorFreshIndexes (freshGroups groups) olderCount) (freshGroups groups).length
    (g.olderIndexes.headD 0)

theorem retainedInGap_eq (h : Placeable groups olderCount) (gap : Int) :
    retainedInGap (oldAnchorFreshIndexes (freshGroups groups) olderCount)
      (freshGroups groups).length (retainedGroups groups) gap =
      (retainedGroups groups).filter fun g => gapOf groups olderCount g = gap := by
  refine filter_congr fun g hg => ?_
  obtain ⟨hmem, hretained⟩ := (mem_retainedGroups).mp hg
  have hne := h.nonempty g hmem hretained
  unfold gapOf
  cases hindexes : g.olderIndexes with
  | nil => exact absurd hindexes hne
  | cons i rest => rfl

theorem placedGroups_filter (h : Placeable groups olderCount) :
    (placedGroups groups olderCount).filter CoalescedTurn.hasFresh = freshGroups groups ∧
    ((placedGroups groups olderCount).filter fun g => !g.hasFresh) = retainedGroups groups := by
  have hfresh : ∀ g ∈ freshGroups groups, g.hasFresh = true := fun g hg => ((mem_freshGroups).mp hg).2
  have hruns : ∀ gap, ∀ g ∈ retainedInGap (oldAnchorFreshIndexes (freshGroups groups) olderCount)
      (freshGroups groups).length (retainedGroups groups) gap, g.hasFresh = false :=
    fun gap g hg => ((mem_retainedGroups).mp (mem_of_mem_filter hg)).2
  have hboundaries := boundaries_anchorRanks (freshGroups groups)
  obtain ⟨hfreshTurns, hretainedTurns⟩ := placeFrom_filter hfresh hruns (by omega) hboundaries
  unfold placedGroups
  refine ⟨?_, ?_⟩
  · rw [hfreshTurns]
    rfl
  · rw [hretainedTurns, flatMap_congr fun gap _ => retainedInGap_eq h gap]
    refine flatMap_classes ?_ (gapKeys_increasing _) fun g _ => gapAt_mem_gapKeys _ _ _
    refine (sortBy_pairwise _).imp fun hle => ?_
    exact gapAt_mono (ranksBelow_oldAnchorFreshIndexes _ _) hle

theorem placedGroups_perm (h : Placeable groups olderCount) :
    (placedGroups groups olderCount).Perm groups := by
  obtain ⟨hfresh, hretained⟩ := placedGroups_filter h
  refine (filter_append_perm CoalescedTurn.hasFresh _).symm.trans ?_
  rw [hfresh, hretained]
  exact ((sortBy_perm _).append (sortBy_perm _)).trans (filter_append_perm _ _)

/-- Two groups with a common index are one. -/
theorem headD_lt_of_le {f : CoalescedTurn → List Nat} {l : List CoalescedTurn}
    (hnodup : (l.flatMap f).Nodup) (hne : ∀ g ∈ l, f g ≠ [])
    (hle : l.Pairwise fun g g' => (f g).headD 0 ≤ (f g').headD 0) :
    l.Pairwise fun g g' => (f g).headD 0 < (f g').headD 0 := by
  have hhead : ∀ g ∈ l, (f g).headD 0 ∈ f g := by
    intro g hg
    cases hf : f g with
    | nil => exact absurd hf (hne g hg)
    | cons i rest => exact mem_cons_self
  refine (hle.and (nodup_flatMap.mp hnodup).2).imp_of_mem ?_
  intro g g' hg hg' h
  refine lt_of_le_of_ne h.1 fun heq => h.2 (hhead g hg) ?_
  rw [heq]
  exact hhead g' hg'

theorem placedGroups_after (h : Placeable groups olderCount) {anchor retained : CoalescedTurn}
    (hanchor : anchor ∈ groups) (hfresh : anchor.hasFresh = true) (hretained : retained ∈ groups)
    (hold : retained.hasFresh = false) (hj : j ∈ anchor.olderIndexes)
    (hlt : j < retained.olderIndexes.headD 0) :
    [anchor, retained].Sublist (placedGroups groups olderCount) := by
  obtain ⟨k, hk⟩ := mem_iff_getElem?.mp (mem_freshGroups.mpr ⟨hanchor, hfresh⟩)
  have htable := rankTable_oldAnchorFreshIndexes (freshGroups groups) olderCount
  -- the rank of the older turn `j` is that of the anchor
  have hrank : (oldAnchorFreshIndexes (freshGroups groups) olderCount)[j]? = some (k : Int) := by
    rcases htable.get j (h.olderBelow anchor hanchor j hj) with ⟨_, hnone⟩ | ⟨entry, hentry, hin, hvalue⟩
    · exact absurd hj (hnone (anchor, k) (mem_zipIdx_iff_getElem?.mpr hk))
    · have hget := mem_zipIdx_iff_getElem?.mp hentry
      have hsame : entry.2 = k := rank_unique h hget hk hin hj
      rw [hvalue, hsame]
  have hmem : (k : Int) ∈ anchorRanks (freshGroups groups) :=
    mem_anchorRanks hk (ne_nil_of_mem hj)
  have hprevious := previousAnchorRank_ge hlt hrank
  have hgap : (k : Int) < gapOf groups olderCount retained := by
    unfold gapOf
    rcases @gapAt_cases (oldAnchorFreshIndexes (freshGroups groups) olderCount)
        (freshGroups groups).length (retained.olderIndexes.headD 0) with
      ⟨hnone, _⟩ | ⟨_, ⟨_, hgap, _⟩ | ⟨hgap, _⟩⟩
    · omega
    · omega
    · rw [hgap]
      exact (anchorRanks_spec hmem).2
  have hboundary : gapOf groups olderCount retained ∈
      anchorRanks (freshGroups groups) ++ [((freshGroups groups).length : Int)] := by
    have hkey := gapAt_mem_gapKeys (freshGroups groups) olderCount (retained.olderIndexes.headD 0)
    cases hb : anchorRanks (freshGroups groups) ++ [((freshGroups groups).length : Int)] with
    | nil => exact absurd hb (by simp)
    | cons first rest =>
      rw [hb] at hkey
      rcases mem_cons.mp hkey with hzero | hrest
      · have : gapOf groups olderCount retained = 0 := hzero
        omega
      · exact mem_cons_of_mem _ hrest
  refine sublist_placeFrom (by omega) (boundaries_anchorRanks _) (mem_append_left _ hmem)
    hboundary hgap hk ?_
  rw [retainedInGap_eq h]
  exact mem_filter.mpr ⟨mem_retainedGroups.mpr ⟨hretained, hold⟩, by simp⟩

end Placed

/-- Placement returns every coalesced turn once, in an order that keeps the order of the fresh
    page and of the older one, retained turns after the anchors they follow. -/
theorem placement_interleaves (context : Bool) (older fresh : List TurnModel) :
    ∃ placed : List CoalescedTurn,
      placeCoalescedTurns (coalesceTurnFragments context older fresh) older.length =
        placed.map CoalescedTurn.turn ∧
      placed.Perm (coalesceTurnFragments context older fresh) ∧
      (∀ group ∈ placed, group.olderIndexes.Pairwise (· < ·) ∧
        group.freshIndexes.Pairwise (· < ·)) ∧
      (placed.filter CoalescedTurn.hasFresh).Pairwise
        (fun g g' => g.freshIndexes.headD 0 < g'.freshIndexes.headD 0) ∧
      (placed.filter fun g => !g.hasFresh).Pairwise
        (fun g g' => g.olderIndexes.headD 0 < g'.olderIndexes.headD 0) ∧
      ∀ anchor ∈ placed, anchor.hasFresh = true → ∀ retained ∈ placed, retained.hasFresh = false →
        ∀ j ∈ anchor.olderIndexes, j < retained.olderIndexes.headD 0 →
          [anchor, retained].Sublist placed := by
  have h := placeable_coalesceTurnFragments context older fresh
  generalize hgroups : coalesceTurnFragments context older fresh = groups at h
  obtain ⟨hfresh, hretained⟩ := placedGroups_filter h
  have hperm := placedGroups_perm h
  refine ⟨placedGroups groups older.length, rfl, hperm, ?_, ?_, ?_, ?_⟩
  · intro group hgroup
    rw [← hgroups] at hperm
    exact coalesceTurnFragments_sorted context older fresh group (hperm.mem_iff.mp (hgroups ▸ hgroup))
  · rw [hfresh]
    refine headD_lt_of_le (nodup_sortBy_filter h.freshNodup) (fun g hg => ?_) (sortBy_pairwise _)
    have := (mem_freshGroups.mp hg).2
    simpa [CoalescedTurn.hasFresh] using this
  · rw [hretained]
    refine headD_lt_of_le (nodup_sortBy_filter h.olderNodup) (fun g hg => ?_) (sortBy_pairwise _)
    obtain ⟨hmem, hold⟩ := mem_retainedGroups.mp hg
    exact h.nonempty g hmem hold
  · intro anchor hanchor hf retained hret ho j hj hlt
    exact placedGroups_after h (hperm.mem_iff.mp hanchor) hf (hperm.mem_iff.mp hret) ho hj hlt

end Evener.TurnHistory
