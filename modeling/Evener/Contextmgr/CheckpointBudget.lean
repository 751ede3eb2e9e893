/-
  A checkpoint keeps to its limit, or only messages of the partner are left of its conversation.
-/
import Evener.Contextmgr.Checkpoint
import Evener.Contextmgr.Fitting

namespace Evener.Contextmgr

open Evener.Lib List

/-! ## Summaries and notes -/

theorem fitSummaries_le (budget : Int) (summaries : List Bytes) :
    fitSummaries budget summaries = [] ∨ (fitSummaries budget summaries).length ≤ budget := by
  induction summaries with
  | nil => exact Or.inl rfl
  | cons summary rest ih =>
    cases rest with
    | nil =>
      rw [fitSummaries]
      dsimp only
      split
      · next hfits => exact Or.inr hfits
      · split
        · exact Or.inl rfl
        · next hfits => exact Or.inr (Int.not_lt.mp hfits)
    | cons next rest =>
      rw [fitSummaries]
      split
      · next hfits => exact Or.inr hfits
      · exact ih

theorem shedNotes_fits (budget : Int) (length : Nat) (notes : List Bytes) :
    shedNotes budget length notes = [] ∨
      (length : Int) + (renderCheckpointWorkingNotes (shedNotes budget length notes)).length ≤
        budget := by
  induction notes with
  | nil => exact Or.inl rfl
  | cons note rest ih =>
    rw [shedNotes]
    split
    · exact ih
    · next hfits => exact Or.inr (Int.not_lt.mp hfits)

/-! ## The limit -/

section Checkpoint

variable (data : CheckpointData) (m : Option CompactionMeta) (maxChars : Int)

/-- The variable part and the summaries fill the limit, or the floor over the fixed part. -/
theorem variableBudget_le :
    frame data m + (summariesMarkdown data m maxChars).length + variableBudget data m maxChars ≤
      max maxChars (frame data m + minVariableBudget) := by
  have hfits := fitSummaries_le
    (min (maxChars.tdiv 2) (maxChars - frame data m - minVariableBudget)) data.earlierSummaries
  change summariesMarkdown data m maxChars = [] ∨
    ((summariesMarkdown data m maxChars).length : Int) ≤ _ at hfits
  unfold variableBudget
  rcases hfits with hnone | hfits
  · rw [hnone, length_nil]
    omega
  · omega

theorem length_spaced (markdown : Bytes) : (spaced markdown).length ≤ markdown.length + 1 := by
  unfold spaced
  split
  · exact Nat.zero_le _
  · simp

theorem length_formatCheckpoint :
    ((formatCheckpoint data m maxChars).length : Int) + 198 ≤
      frame data m + (summariesMarkdown data m maxChars).length +
        (renderCheckpointConversation (keptConversation data m maxChars)).length +
        (renderCheckpointWorkingNotes (keptNotes data m maxChars)).length := by
  have hconversation := length_spaced (renderCheckpointConversation (keptConversation data m maxChars))
  have hnotes := length_spaced (renderCheckpointWorkingNotes (keptNotes data m maxChars))
  unfold formatCheckpoint frame
  simp only [length_append]
  omega

theorem fit_fitting {conversation : List CheckpointConversationEntry} {budget : Int}
    (h : (renderCheckpointConversation conversation).length ≤ budget) (recoverable : Bool) :
    fitCheckpointConversation conversation budget recoverable = conversation := by
  have hshed : shedFit budget conversation = ⟨(startFit conversation).rendered, conversation⟩ :=
    shedReplies_fitting conversation h
  have hfits : (shedFit budget conversation).rendered ≤ budget := by
    rw [hshed]
    exact h
  rw [fit_kept budget (Or.inl hfits), hshed]

/-- Over the limit a checkpoint holds no note and no reply, and each message at its floor if there
    is a transcript to read it in. -/
theorem checkpoint_yields :
    ((formatCheckpoint data m maxChars).length : Int) ≤
        max maxChars (frame data m + minVariableBudget) ∨
      keptNotes data m maxChars = [] ∧
        (∀ entry ∈ keptConversation data m maxChars, entry.role = utf8 "user") ∧
        (hasTranscript m = true → List.Forall₂ Floored (partnerMessages data.conversation)
          (keptConversation data m maxChars)) := by
  have hlength := length_formatCheckpoint data m maxChars
  have hbudget := variableBudget_le data m maxChars
  obtain ⟨shed, rest, hsplit, hfitted, _, hover⟩ := fit_spec
    (variableBudget data m maxChars -
      (renderCheckpointWorkingNotes (keptNotes data m maxChars)).length)
    (fun _ => @mem_clean data.conversation _) (hasTranscript m)
  change List.Forall₂ Fitted _ (keptConversation data m maxChars) at hfitted
  by_cases hfits : ((renderCheckpointConversation (keptConversation data m maxChars)).length : Int) ≤
      variableBudget data m maxChars -
        (renderCheckpointWorkingNotes (keptNotes data m maxChars)).length
  · exact Or.inl (by omega)
  · obtain ⟨hrest, hfloored⟩ := hover (Int.not_le.mp hfits)
    rw [hrest, append_nil] at hsplit hfitted
    rw [← hsplit] at hfitted hfloored
    refine Or.inr ⟨?_, fun entry hentry => ?_, hfloored⟩
    · rcases shedNotes_fits (variableBudget data m maxChars)
        (renderCheckpointConversation (cleanCheckpointConversation data.conversation)).length
        data.workingNotes with hnone | hroom
      · exact hnone
      · refine absurd ?_ hfits
        change ((renderCheckpointConversation (cleanCheckpointConversation
          data.conversation)).length : Int) + (renderCheckpointWorkingNotes
          (keptNotes data m maxChars)).length ≤ variableBudget data m maxChars at hroom
        unfold keptConversation
        rw [fit_fitting (by omega)]
        omega
    · have hmem := mem_map_of_mem (f := CheckpointConversationEntry.role) hentry
      rw [roles_of_fitted hfitted] at hmem
      obtain ⟨message, hmessage, hrole⟩ := mem_map.mp hmem
      rw [← hrole]
      simpa using (mem_filter.mp hmessage).2

end Checkpoint

end Evener.Contextmgr
