/-
  Budgets yield to the partner's messages only.
-/
import Evener.Contextmgr.CarryBounds
import Evener.Contextmgr.CheckpointBudget

namespace Evener.Contextmgr

open Evener.Lib List

/-! ## The carry -/

theorem partnerMessages_message (conversation : List CheckpointConversationEntry) :
    ∀ entry ∈ partnerMessages conversation, Message entry := by
  intro entry hentry
  obtain ⟨hmem, hrole⟩ := mem_filter.mp hentry
  exact Message.of_clean (mem_clean hmem) (by simpa using hrole)

theorem Message.clean {entry : CheckpointConversationEntry} (h : Message entry) : entry.Clean :=
  ⟨Or.inl h.role, trimBytes_of_trimmed h.trimmed, h.some⟩

theorem filter_messages {l : List CheckpointConversationEntry} (h : ∀ entry ∈ l, Message entry) :
    (l.filter fun entry => entry.role = utf8 "user") = l :=
  filter_eq_self.mpr fun entry hentry => decide_eq_true (h entry hentry).role

/-- Fitting makes a rendering no longer. -/
theorem render_fitted_le {kept fitted : List CheckpointConversationEntry}
    (h : List.Forall₂ Fitted kept fitted) (hmessages : ∀ entry ∈ kept, Message entry)
    (hshown : ∀ entry ∈ fitted, Shown entry) :
    (renderCheckpointConversation fitted).length ≤ (renderCheckpointConversation kept).length := by
  have hsizes : (fitted.map entrySize).sum ≤ (kept.map entrySize).sum := by
    clear hshown
    induction h with
    | nil => exact Nat.le_refl _
    | @cons entry entry' kept fitted hentry _ ih =>
      have hrest := ih fun e he => hmessages e (mem_cons_of_mem entry he)
      have hmessage := hmessages entry mem_cons_self
      rw [map_cons, map_cons, sum_cons, sum_cons]
      rcases hentry with rfl | ⟨_, edge, _, hless, rfl⟩
      · omega
      · have := hmessage.size_middle edge
        omega
  have hlength := h.length_eq
  by_cases hnil : kept = []
  · rw [hnil, length_nil] at hlength
    rw [length_eq_zero_iff.mp hlength.symm]
    exact Nat.zero_le _
  · have hnil' : fitted ≠ [] := by
      intro hfitted
      rw [hfitted, length_nil] at hlength
      exact hnil (length_eq_zero_iff.mp hlength)
    rw [length_render_shown hnil fun e he => (hmessages e he).shown, length_render_shown hnil' hshown]
    omega

/-- Fitting keeps messages, each in its place, and over the budget leaves them at their floors. -/
theorem fit_partner {kept : List CheckpointConversationEntry}
    (hmessages : ∀ entry ∈ kept, Message entry) (budget : Int) (recoverable : Bool) :
    List.Forall₂ Fitted kept (fitCheckpointConversation kept budget recoverable) ∧
      (∀ entry ∈ fitCheckpointConversation kept budget recoverable, Shown entry) ∧
      (budget < (renderCheckpointConversation
        (fitCheckpointConversation kept budget recoverable)).length → recoverable = true →
          List.Forall₂ Floored kept (fitCheckpointConversation kept budget recoverable)) := by
  obtain ⟨shed, rest, hsplit, hfitted, hshown, hover⟩ :=
    fit_spec budget (fun e he => (hmessages e he).clean) recoverable
  have hshed : (shed.filter fun entry => entry.role = utf8 "user") = shed :=
    filter_messages fun e he => hmessages e (hsplit ▸ mem_append_left _ he)
  rw [hshed] at hfitted hover
  rw [← hsplit] at hfitted
  refine ⟨hfitted, hshown, fun hlarge hrecoverable => ?_⟩
  obtain ⟨rfl, hfloored⟩ := hover hlarge
  rw [append_nil] at hsplit
  exact hsplit ▸ hfloored hrecoverable

/-- What is carried of a message: all of it, or two ends. -/
def Carried (entry entry' : CheckpointConversationEntry) : Prop :=
  entry' = entry ∨ ∃ edge, entry' = entry.middle edge

theorem Fitted.carried {entry entry' : CheckpointConversationEntry} (h : Fitted entry entry') :
    Carried entry entry' := by
  rcases h with rfl | ⟨_, edge, _, _, rfl⟩
  · exact Or.inl rfl
  · exact Or.inr ⟨edge, rfl⟩

theorem carriedMessages_spec {kept : List CheckpointConversationEntry}
    (hmessages : ∀ entry ∈ kept, Message entry) (hlengths : ∀ entry ∈ kept, entry.text.length < 2 ^ 63)
    {recoverable : Bool} {ceiling : Int} (hceiling : 400 ≤ ceiling)
    (hfits : ((renderCheckpointConversation kept).length : Int) ≤ ceiling ∨
      recoverable = true ∧ ∃ newest, kept = [newest]) :
    List.Forall₂ Carried kept (carriedMessages kept recoverable ceiling) ∧
      ((renderCheckpointConversation (carriedMessages kept recoverable ceiling)).length : Int) ≤
        ceiling := by
  obtain ⟨hfitted, hshown, hover⟩ := fit_partner hmessages (min maxCheckpointChars ceiling) recoverable
  have hless := render_fitted_le hfitted hmessages hshown
  have hpos : 0 < ceiling := by omega
  unfold carriedMessages
  simp only [if_pos hpos]
  generalize fitCheckpointConversation kept (min maxCheckpointChars ceiling) recoverable = fitted
    at hfitted hshown hover hless ⊢
  split
  · next hlarge =>
    obtain ⟨hrecoverable, newest, rfl⟩ := hfits.resolve_left (by omega)
    have hpair := hover (by omega) hrecoverable
    obtain ⟨left, hleft, rfl⟩ : ∃ left, Floored newest left ∧ fitted = [left] := by
      cases hpair with
      | cons hleft hnil =>
        cases hnil
        exact ⟨_, hleft, rfl⟩
    obtain ⟨edge, htrim, hbelow⟩ := trimNewest_fits (hmessages newest mem_cons_self)
      (hlengths newest mem_cons_self) hleft hceiling hlarge.2
    change List.Forall₂ Carried [newest] (trimNewest ceiling newest.text [left]) ∧
      ((renderCheckpointConversation (trimNewest ceiling newest.text [left])).length : Int) ≤ ceiling
    rw [htrim]
    exact ⟨.cons (Or.inr ⟨edge, rfl⟩) .nil, hbelow⟩
  · next hbelow =>
    exact ⟨hfitted.imp fun _ _ => Fitted.carried, by omega⟩

/-! ## All budgets -/

/-- A checkpoint exceeds its limit only by what the partner wrote; fitting sheds replies from the
    oldest on, and its running length is the true one while an entry is left; the carry of a summary
    turn is the newest messages, and never exceeds a ceiling of 400 or more. -/
theorem budgets_yield_to_partner :
    (∀ (data : CheckpointData) (m : Option CompactionMeta) (maxChars : Int),
      frame data m + minVariableBudget - 2 ^ 63 ≤ maxChars →
      ((formatCheckpoint data m maxChars).length : Int) ≤
          max maxChars (frame data m + minVariableBudget) ∨
        keptNotes data m maxChars = [] ∧
          (∀ entry ∈ keptConversation data m maxChars, entry.role = utf8 "user") ∧
          (hasTranscript m = true → List.Forall₂ Floored (partnerMessages data.conversation)
            (keptConversation data m maxChars))) ∧
    (∀ (entries : List CheckpointConversationEntry) (budget : Int) (recoverable : Bool),
      let conversation := cleanCheckpointConversation entries
      (∃ shed rest, conversation = shed ++ rest ∧
        List.Forall₂ Fitted ((shed.filter fun entry => entry.role = utf8 "user") ++ rest)
          (fitCheckpointConversation conversation budget recoverable)) ∧
      (∀ processed rest, conversation = processed ++ rest →
        let fit := shedReplies budget processed (startFit conversation)
        fit.kept ++ rest ≠ [] →
          fit.rendered = (renderCheckpointConversation (fit.kept ++ rest)).length) ∧
      ∀ processed rest, longMessages (shedFit budget conversation).kept = processed ++ rest →
        budget < (shedFit budget conversation).rendered →
        let fit := trimLongest budget processed (shedFit budget conversation)
        fit.kept ≠ [] → fit.rendered = (renderCheckpointConversation fit.kept).length) ∧
    ∀ (conversation : List CheckpointConversationEntry) (recoverable : Bool) (ceiling : Int),
      400 ≤ ceiling → (∀ entry ∈ partnerMessages conversation, entry.text.length < 2 ^ 63) →
      ∃ left carried,
        partnerMessagesMarkdown conversation recoverable ceiling =
          (renderCheckpointConversation carried, (partnerMessages conversation).take left) ∧
        List.Forall₂ Carried ((partnerMessages conversation).drop left) carried ∧
        ((renderCheckpointConversation carried).length : Int) ≤ ceiling := by
  refine ⟨fun data m maxChars _ => checkpoint_yields data m maxChars, fun entries budget recoverable => ?_, fun
    conversation recoverable ceiling hceiling hlengths => ?_⟩
  · have hclean : ∀ entry ∈ cleanCheckpointConversation entries, entry.Clean := fun _ => mem_clean
    dsimp only
    obtain ⟨shed, rest, hsplit, hfitted, _⟩ := fit_spec budget hclean recoverable
    exact ⟨⟨shed, rest, hsplit, hfitted⟩, fun processed rest => shed_running budget hclean,
      fun processed rest => trim_running budget hclean⟩
  · have hmessages := partnerMessages_message conversation
    have hfits := carriedOf_fits (fun e he => (hmessages e he).shown) recoverable
      (show 0 < ceiling by omega)
    obtain ⟨hcarried, hbelow⟩ := @carriedMessages_spec _
      (fun e he => hmessages e (mem_of_mem_drop he))
      (fun e he => hlengths e (mem_of_mem_drop he)) recoverable _ hceiling hfits
    exact ⟨_, _, rfl, hcarried, hbelow⟩

def doneReply : CheckpointConversationEntry := ⟨utf8 "agent", utf8 "Done."⟩

/-- A reply and a message of 2400 bytes. -/
def askedAndAnswered : List CheckpointConversationEntry :=
  [doneReply, ⟨utf8 "user", List.replicate 2400 97⟩]

/-- Within 2200 bytes a checkpoint holds the reply alone; beside the message it is shed, and the
    message is trimmed. -/
theorem budgets_yield_to_partner_message :
    ((formatCheckpoint { conversation := [doneReply] } none 2200).length : Int) ≤ 2200 ∧
      (shedReplies 2200 [doneReply] (startFit askedAndAnswered)).kept = [] ∧
      (shedReplies 2200 [doneReply] (startFit askedAndAnswered)).rendered =
        (renderCheckpointConversation (askedAndAnswered.drop 1)).length ∧
      (trimLongest 2200 [0] (shedFit 2200 askedAndAnswered)).kept ≠ askedAndAnswered.drop 1 ∧
      (trimLongest 2200 [0] (shedFit 2200 askedAndAnswered)).rendered =
        (renderCheckpointConversation
          (trimLongest 2200 [0] (shedFit 2200 askedAndAnswered)).kept).length ∧
      ((partnerMessagesMarkdown askedAndAnswered true 400).1.length : Int) ≤ 400 := by
  obtain ⟨hcheckpoint, hfit, hcarry⟩ := budgets_yield_to_partner
  have hclean : cleanCheckpointConversation askedAndAnswered = askedAndAnswered := by decide +kernel
  obtain ⟨_, hshed, htrim⟩ := hfit askedAndAnswered 2200 true
  rw [hclean] at hshed htrim
  have hnone : (shedReplies 2200 [doneReply] (startFit askedAndAnswered)).kept = [] := by
    decide +kernel
  have hrunning := hshed [doneReply] (askedAndAnswered.drop 1) rfl (concat_ne_nil _ _)
  rw [hnone] at hrunning
  obtain ⟨left, carried, hmarkdown, _, hbelow⟩ := hcarry askedAndAnswered true 400 (by decide) (by
    intro entry hentry
    have hone : partnerMessages askedAndAnswered = askedAndAnswered.drop 1 := by decide +kernel
    rw [hone] at hentry
    rw [mem_singleton.mp hentry, length_replicate]
    decide)
  refine ⟨?_, hnone, hrunning, by decide +kernel,
    htrim [0] [] (by decide +kernel) (by decide +kernel) (by decide +kernel), ?_⟩
  · rcases hcheckpoint { conversation := [doneReply] } none 2200 (by decide +kernel) with
      hfits | ⟨_, hmessages, _⟩
    · exact hfits.trans (by decide +kernel)
    · -- the reply is kept
      exact absurd (hmessages doneReply (by decide +kernel)) (by decide)
  · rw [hmarkdown]
    exact hbelow

/-- With nothing kept, the running length still counts the heading. -/
theorem running_length_of_nothing :
    let conversation := cleanCheckpointConversation [⟨utf8 "agent", utf8 "Done."⟩]
    let fit := shedReplies 0 conversation (startFit conversation)
    fit.kept = [] ∧ fit.rendered ≠ (renderCheckpointConversation fit.kept).length := by
  decide

end Evener.Contextmgr
