/-
  The carry of a summary turn stays below its ceiling.

  The newest messages are counted until the ceiling is reached, so at most the newest one alone can
  exceed it; its middle is then trimmed from how it was written.
-/
import Evener.Contextmgr.Fitting

namespace Evener.Contextmgr

open Evener.Lib List

/-! ## Counting -/

theorem countCarried_spec (ceiling : Int) {l : List CheckpointConversationEntry}
    (h : ∀ entry ∈ l, Shown entry) (size : Int) (n : Nat) :
    ∃ k ≤ l.length, countCarried ceiling l size n =
        (size + (((l.take k).map entrySize).sum : Nat), n + k) ∧
      (k = 0 ∨ n = 0 ∧ k = 1 ∨ size + (((l.take k).map entrySize).sum : Nat) ≤ ceiling) := by
  induction l generalizing size n with
  | nil => exact ⟨0, Nat.le_refl 0, by simp [countCarried], Or.inl rfl⟩
  | cons entry l ih =>
    have hsize := blockLen_eq (h entry mem_cons_self)
    rw [countCarried]
    split
    · exact ⟨0, Nat.zero_le _, by simp, Or.inl rfl⟩
    · next hcounts =>
      obtain ⟨k, hk, hcount, hbound⟩ :=
        ih (fun e he => h e (mem_cons_of_mem entry he)) (size + blockLen entry) (n + 1)
      have hsum : size + blockLen entry + (((l.take k).map entrySize).sum : Nat) =
          size + ((((entry :: l).take (k + 1)).map entrySize).sum : Nat) := by
        rw [take_succ_cons, map_cons, sum_cons, hsize]
        omega
      refine ⟨k + 1, by rw [length_cons]; omega, ?_, ?_⟩
      · rw [hcount, hsum]
        congr 1
        omega
      · rw [← hsum]
        rcases hbound with rfl | ⟨hzero, _⟩ | hle
        · by_cases hn : n = 0
          · exact Or.inr (Or.inl ⟨hn, rfl⟩)
          · refine Or.inr (Or.inr ?_)
            have : ¬ ceiling < size + blockLen entry := fun hlt => hcounts ⟨by omega, hlt⟩
            simp
            omega
        · omega
        · exact Or.inr (Or.inr hle)

/-- The messages that are carried. -/
def carriedOf (partner : List CheckpointConversationEntry) (recoverable : Bool) (ceiling : Int) :
    List CheckpointConversationEntry :=
  partner.drop (partner.length - carriedCount partner recoverable ceiling)

/-- They are within the ceiling, but for the newest message alone. -/
theorem carriedOf_fits {partner : List CheckpointConversationEntry}
    (h : ∀ entry ∈ partner, Shown entry) (recoverable : Bool) {ceiling : Int} (hpos : 0 < ceiling) :
    ((renderCheckpointConversation (carriedOf partner recoverable ceiling)).length : Int) ≤ ceiling ∨
      recoverable = true ∧ ∃ newest, carriedOf partner recoverable ceiling = [newest] := by
  obtain ⟨k, hk, hcount, hbound⟩ := countCarried_spec ceiling (l := partner.reverse)
    (fun entry hentry => h entry (mem_reverse.mp hentry))
    ((checkpointConversationHeading ++ utf8 "\n\n").length : Int) 0
  have hheading : (checkpointConversationHeading ++ utf8 "\n\n").length = 17 := by decide
  rw [length_reverse] at hk
  rw [hheading] at hcount hbound
  have hempty : ((renderCheckpointConversation []).length : Int) ≤ ceiling := by
    have hnone : (renderCheckpointConversation []).length = 0 := rfl
    omega
  unfold carriedOf carriedCount
  rw [if_neg (by omega), hheading, hcount]
  dsimp only
  split
  · left
    rw [Nat.sub_zero, drop_length]
    exact hempty
  · next hkeeps =>
    rw [Nat.zero_add]
    have hkept : partner.drop (partner.length - k) = (partner.reverse.take k).reverse := by
      rw [take_reverse, reverse_reverse]
    have hsum : ((partner.drop (partner.length - k)).map entrySize).sum =
        ((partner.reverse.take k).map entrySize).sum := by
      rw [hkept, map_reverse, sum_reverse]
    have hfits : 17 + (((partner.reverse.take k).map entrySize).sum : Int) ≤ ceiling →
        ((renderCheckpointConversation (partner.drop (partner.length - k))).length : Int) ≤
          ceiling := by
      intro hle
      by_cases hnil : partner.drop (partner.length - k) = []
      · rw [hnil]
        exact hempty
      · rw [length_render_shown hnil fun e he => h e (mem_of_mem_drop he), hsum]
        omega
    rcases hbound with rfl | ⟨_, rfl⟩ | hle
    · left
      rw [Nat.sub_zero, drop_length]
      exact hempty
    · by_cases hle : 17 + (((partner.reverse.take 1).map entrySize).sum : Int) ≤ ceiling
      · exact Or.inl (hfits hle)
      · right
        have hrecoverable : recoverable = true := by
          by_contra hlost
          exact hkeeps ⟨by omega, by simpa using hlost⟩
        refine ⟨hrecoverable, ?_⟩
        have hone : (partner.drop (partner.length - 1)).length = 1 := by
          rw [length_drop]
          omega
        exact length_eq_one_iff.mp hone
    · exact Or.inl (hfits (by omega))

/-! ## The newest message -/

/-- The shown length of a trimmed text: what is cut between smaller edges loses no less. -/
theorem shown_middleTrim {text : Bytes} (h : Trimmed text) {edge edge' : Nat} (hle : edge ≤ edge')
    (hshort : 2 * edge' < text.length) :
    longestRun (trimBytes (middleTrim text edge)) 0 0 ≤
        longestRun (trimBytes (middleTrim text edge')) 0 0 ∧
      (trimBytes (middleTrim text edge)).length + (middleTrim text edge').length ≤
        (trimBytes (middleTrim text edge')).length + (middleTrim text edge).length := by
  have hhead := cutText_mono text hle
  have htail := tailText_mono hle (show edge' ≤ text.length by omega)
  have hempty : cutText text edge' = [] → cutText text edge = [] := fun hnil => by
    rw [hnil] at hhead
    exact prefix_nil.mp hhead
  have hempty' : tailText text edge' = [] → tailText text edge = [] := fun hnil => by
    rw [hnil] at htail
    exact suffix_nil.mp htail
  have hcut := trimBytes_ends h (prefix_cutText text edge) (tailText_suffix text edge)
    (text.length - (cutText text edge).length - (tailText text edge).length)
  have hcut' := trimBytes_ends h (prefix_cutText text edge') (tailText_suffix text edge')
    (text.length - (cutText text edge').length - (tailText text edge').length)
  rw [← middleTrim_ends (by omega)] at hcut hcut'
  constructor
  · refine Nat.le_trans (longestRun_trimBytes (middleTrim text edge)) ?_
    rw [hcut', middleTrim_ends (by omega)]
    unfold shownTrimmed
    refine longestRun_ends ?_ ?_ (note_ne_nil _) (backtick_not_mem_note _)
    · split
      · next hnil =>
        rw [hempty hnil]
        exact nil_prefix
      · rw [append_assoc, append_assoc]
        exact hhead.trans (prefix_append _ _)
    · generalize (if cutText text edge' = [] then [] else cutText text edge' ++ gap) = front
      split
      · next hnil =>
        rw [hempty' hnil]
        exact nil_suffix
      · rw [← append_assoc]
        exact htail.trans (suffix_append _ _)
  · have hlength := length_shownTrimmed (cutText text edge) (tailText text edge)
      (text.length - (cutText text edge).length - (tailText text edge).length)
    have hlength' := length_shownTrimmed (cutText text edge') (tailText text edge')
      (text.length - (cutText text edge').length - (tailText text edge').length)
    have hloss : (if cutText text edge' = [] then 2 else 0) ≤
        if cutText text edge = [] then 2 else 0 := by
      split
      · next hnil => rw [if_pos (hempty hnil)]
      · exact Nat.zero_le _
    have hloss' : (if tailText text edge' = [] then 2 else 0) ≤
        if tailText text edge = [] then 2 else 0 := by
      split
      · next hnil => rw [if_pos (hempty' hnil)]
      · exact Nat.zero_le _
    rw [hcut, hcut', middleTrim_ends (by omega), middleTrim_ends (by omega)]
    simp only [length_append]
    omega

theorem render_message {entry : CheckpointConversationEntry} (h : Shown entry)
    (hrole : entry.role = utf8 "user") :
    (renderCheckpointConversation [entry]).length = 27 + textSize (trimBytes entry.text) := by
  have hsome : trimBytes entry.text ≠ [] := by
    intro hnil
    refine h ?_
    unfold cleanEntry
    rw [if_pos hnil]
  obtain ⟨role, text⟩ := entry
  dsimp only at hrole hsome ⊢
  subst hrole
  rw [length_render_shown (by simp) (by simpa using h), map_singleton, sum_singleton,
    entrySize_user hsome]
  omega

/-- The smallest trim: a byte of each end at most. -/
theorem smallest_trim {text : Bytes} (hlength : text.length < 2 ^ 63) (hlong : 2 < text.length) :
    (middleTrim text 1).length ≤ 125 ∧ longestRun (middleTrim text 1) 0 0 ≤ 1 := by
  have hhead := length_cutText_le text 1
  have htail := length_tailText_le text 1
  have hnote := @length_middleTrim_le text 1 hlong
  have hdigits := @length_decimal_le text.length 19 (by omega) (by omega)
  have hrun := longestRun_length (cutText text 1)
  have hrun' := longestRun_length (tailText text 1)
  rw [length_note] at hnote
  refine ⟨by omega, ?_⟩
  rw [middleTrim_ends hlong, longestRun_around (note_ne_nil _) (backtick_not_mem_note _)]
  omega

theorem Floored.role {entry entry' : CheckpointConversationEntry} (h : Floored entry entry') :
    entry'.role = entry.role := by
  unfold Floored at h
  split at h
  · rw [h]
    rfl
  · rw [h]

theorem Floored.shown {entry entry' : CheckpointConversationEntry} (h : Floored entry entry')
    (hmessage : Message entry) : Shown entry' := by
  unfold Floored at h
  split at h
  · rw [h]
    exact hmessage.shown_middle _
  · rw [h]
    exact hmessage.shown

/-- A smaller cut of the message as it was written shows less than what fitting left of it. -/
theorem Floored.shown_middle {written left : CheckpointConversationEntry} (h : Floored written left)
    (hmessage : Message written) {edge : Nat}
    (hshort : 2 * edge + (trimmedMessageNote written.text.length).length ≤ left.text.length) :
    longestRun (trimBytes (middleTrim written.text edge)) 0 0 ≤
        longestRun (trimBytes left.text) 0 0 ∧
      (trimBytes (middleTrim written.text edge)).length + left.text.length ≤
        (trimBytes left.text).length + (middleTrim written.text edge).length := by
  unfold Floored at h
  split at h
  · next hlong =>
    have hfloor : 2 * partnerMessageEdgeChars < written.text.length := by
      by_contra hle
      rw [middleTrim_short (by omega)] at hlong
      omega
    have hfull := length_middleTrim_le hfloor
    rw [h] at hshort ⊢
    change 2 * edge + _ ≤ (middleTrim written.text partnerMessageEdgeChars).length at hshort
    exact Evener.Contextmgr.shown_middleTrim hmessage.trimmed (by omega) hfloor
  · rw [h] at hshort ⊢
    rw [trimBytes_of_trimmed hmessage.trimmed]
    have hrun := Nat.le_trans (longestRun_trimBytes (middleTrim written.text edge))
      (longestRun_middleTrim written.text edge)
    have hlength := length_trimBytes_le (middleTrim written.text edge)
    exact ⟨hrun, by omega⟩

/-- The newest message alone is trimmed below the ceiling, from how it was written. -/
theorem trimNewest_fits {written left : CheckpointConversationEntry} (h : Message written)
    (hlength : written.text.length < 2 ^ 63) (hleft : Floored written left) {ceiling : Int}
    (hceiling : 400 ≤ ceiling)
    (hover : ceiling < (renderCheckpointConversation [left]).length) :
    ∃ edge, trimNewest ceiling written.text [left] = [written.middle edge] ∧
      ((renderCheckpointConversation [written.middle edge]).length : Int) ≤ ceiling := by
  have hrole : left.role = utf8 "user" := hleft.role.trans h.role
  have hsize := render_message (hleft.shown h) hrole
  have hshown := length_trimBytes_le left.text
  have hrendered : ∀ edge, (renderCheckpointConversation [written.middle edge]).length =
      27 + textSize (trimBytes (middleTrim written.text edge)) :=
    fun edge => render_message (h.shown_middle edge) h.role
  have htrim : trimNewest ceiling written.text [left] =
      if (middleTrim written.text (max ((left.text.length -
        ((renderCheckpointConversation [left]).length - ceiling) -
        (trimmedMessageNote written.text.length).length : Int).tdiv 2) 1).toNat).length <
          left.text.length then
        [written.middle (max ((left.text.length -
          ((renderCheckpointConversation [left]).length - ceiling) -
          (trimmedMessageNote written.text.length).length : Int).tdiv 2) 1).toNat]
      else [left] := by
    unfold CheckpointConversationEntry.middle
    rw [← hleft.role]
    rfl
  generalize hroom : (left.text.length - ((renderCheckpointConversation [left]).length - ceiling) -
    (trimmedMessageNote written.text.length).length : Int) = room at htrim
  have hnote := length_note written.text.length
  have hdigits := @length_decimal_le written.text.length 19 (by omega) (by omega)
  by_cases hlarge : 2 ≤ room
  · -- the ends that the ceiling leaves
    have hhalf : room.tdiv 2 = room / 2 := Int.tdiv_eq_ediv_of_nonneg (by omega)
    have hedge : (max (room.tdiv 2) 1).toNat = (room / 2).toNat := by
      rw [hhalf]
      omega
    rw [hedge] at htrim
    generalize hcut : (room / 2).toNat = edge at htrim
    have hleast : left.text.length ≤ written.text.length := by
      unfold Floored at hleft
      split at hleft
      · next hlong =>
        rw [hleft]
        exact Nat.le_of_lt hlong
      · rw [hleft]
    have htrimmed := @length_middleTrim_le written.text edge (by omega)
    obtain ⟨hrun, hless⟩ := @Floored.shown_middle _ _ hleft h edge (by omega)
    have htext := textSize_mono hrun
    refine ⟨edge, htrim.trans (if_pos (by omega)), ?_⟩
    rw [hrendered]
    omega
  · -- a byte of each end
    have hedge : (max (room.tdiv 2) 1).toNat = 1 := by
      have hsmall : room.tdiv 2 ≤ (1 : Int).tdiv 2 := Int.tdiv_le_tdiv (by decide) (by omega)
      have hzero : (1 : Int).tdiv 2 = 0 := by decide
      omega
    have hfence := fenceLength_le (trimBytes left.text)
    have hruns := longestRun_length (trimBytes left.text)
    unfold textSize at hsize
    have hleast : 122 ≤ left.text.length := by omega
    have hcut : 2 < written.text.length ∧ (middleTrim written.text 1).length < left.text.length := by
      unfold Floored at hleft
      split at hleft
      · next hlong =>
        have hfloor : 2 * partnerMessageEdgeChars < written.text.length := by
          by_contra hle
          rw [middleTrim_short (by omega)] at hlong
          omega
        have hthousand : partnerMessageEdgeChars = 1000 := rfl
        have htail := @le_length_tailText written.text partnerMessageEdgeChars (by omega)
        have hfull := congrArg List.length (middleTrim_ends hfloor)
        rw [length_append, length_append] at hfull
        have hsmallest := smallest_trim hlength (by omega)
        rw [hleft]
        change _ ∧ _ < (middleTrim written.text partnerMessageEdgeChars).length
        omega
      · rw [hleft] at hleast ⊢
        have htrimmed := @length_middleTrim_le written.text 1 (by omega)
        refine ⟨by omega, ?_⟩
        by_cases hsmall : written.text.length < 1000
        · have := @length_decimal_le written.text.length 3 (by omega) (by omega)
          omega
        · omega
    obtain ⟨hbytes, hbackticks⟩ := smallest_trim hlength hcut.1
    rw [hedge] at htrim
    refine ⟨1, htrim.trans (if_pos hcut.2), ?_⟩
    have hshort := length_trimBytes_le (middleTrim written.text 1)
    have hfences := fenceLength_le (trimBytes (middleTrim written.text 1))
    have hrun := longestRun_trimBytes (middleTrim written.text 1)
    rw [hrendered]
    unfold textSize
    omega

end Evener.Contextmgr
