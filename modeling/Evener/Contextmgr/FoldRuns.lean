/-
  Folds of a conversation, one after the other.

  A fold reads the messages that the turn before it carries and writes a turn of its own. What
  becomes of a message is what the next fold reads back.
-/
import Evener.Contextmgr.CarryRuns
import Evener.Contextmgr.CheckpointRead

namespace Evener.Contextmgr

open Evener.Lib List

/-! ## Runs of folds -/

/-- A message of the partner, as it was written and as the newest compaction turn carries it. -/
structure Held where
  written : Bytes
  carried : Bytes
deriving DecidableEq

/-- The messages as they are carried. -/
def carriedEntries (held : List Held) : List CheckpointConversationEntry :=
  held.map fun message => ⟨utf8 "user", message.carried⟩

/-- The messages with the texts that are read back from a turn. -/
def readBack (held : List Held) (turn : Bytes) : List Held :=
  List.zipWith (fun message entry => ⟨message.written, entry.text⟩) held
    (partnerMessages (extractMarkdownConversation turn))

/-- What a fold is given. -/
inductive FoldCall where
  | checkpoint (data : CheckpointData) (m : Option CompactionMeta) (maxChars : Int)
  | summary (conversation : List CheckpointConversationEntry) (m : Option CompactionMeta)
      (reply : Bytes) (ceiling : Int)

namespace FoldCall

def conversation : FoldCall → List CheckpointConversationEntry
  | .checkpoint data _ _ => data.conversation
  | .summary conversation _ _ _ => conversation

/-- The number of messages that it leaves to the summary. -/
def left : FoldCall → Nat
  | .checkpoint _ _ _ => 0
  | .summary conversation m _ ceiling =>
    (partnerMessagesMarkdown conversation (hasTranscript m) ceiling).2.length

/-- The conversation that it renders. -/
def fitted : FoldCall → List CheckpointConversationEntry
  | .checkpoint data m maxChars => keptConversation data m maxChars
  | .summary conversation m _ ceiling =>
    carriedMessages (carriedOf (partnerMessages conversation) (hasTranscript m) ceiling)
      (hasTranscript m) ceiling

/-- The turn that it writes. -/
def turn : FoldCall → Bytes
  | .checkpoint data m maxChars => formatCheckpoint data m maxChars
  | .summary conversation m reply ceiling =>
    summaryTurnText m (partnerMessagesMarkdown conversation (hasTranscript m) ceiling).2.length reply
      (summary conversation m reply ceiling).fitted

/-- The cuts that it makes of the messages it keeps. -/
def cuts : FoldCall → List (Nat × Nat)
  | .checkpoint data m maxChars =>
    fitCuts (cleanCheckpointConversation data.conversation)
      (variableBudget data m maxChars -
        (renderCheckpointWorkingNotes (keptNotes data m maxChars)).length) (hasTranscript m)
  | .summary conversation m _ ceiling =>
    carryCuts (carriedOf (partnerMessages conversation) (hasTranscript m) ceiling) (hasTranscript m)
      ceiling

end FoldCall

/-- The messages that are held after some messages and folds; every fold is `ok`. -/
inductive Carries (ok : List Held → FoldCall → Prop) : List Held → Prop where
  | start : Carries ok []
  | written {held : List Held} (text : Bytes) (some : trimBytes text ≠ []) (before : Carries ok held) :
      Carries ok (held ++ [⟨trimBytes text, trimBytes text⟩])
  | folded {held : List Held} (call : FoldCall) (before : Carries ok held)
      (collected : partnerMessages call.conversation = carriedEntries held) (fair : ok held call) :
      Carries ok (readBack (held.drop call.left) call.turn)

/-- The carried text is the message as written, or a prefix of it, one note and a suffix of it, with
    the number of bytes in neither. -/
def Held.Truthful (message : Held) : Prop :=
  message.carried = message.written ∨ ∃ head tail, head <+: message.written ∧
    tail <:+ message.written ∧ head.length + tail.length ≤ message.written.length ∧
    message.carried = head ++
      trimmedMessageNote (message.written.length - head.length - tail.length) ++ tail

/-! ## What is read back -/

/-- An entry of the partner or of the agent, which is rendered. -/
structure Rendered (entry : CheckpointConversationEntry) : Prop where
  role : entry.role = utf8 "user" ∨ entry.role = utf8 "agent"
  shown : Shown entry

theorem cleanEntry_rendered {entry : CheckpointConversationEntry} (h : Rendered entry) :
    cleanEntry entry = some ⟨entry.role, trimBytes entry.text⟩ := by
  have hsome : trimBytes entry.text ≠ [] := by
    intro hnil
    refine h.shown ?_
    unfold cleanEntry
    rw [if_pos hnil]
  have huser : lowerBytes (trimBytes (utf8 "user")) = utf8 "user" := by decide
  have hagent : lowerBytes (trimBytes (utf8 "agent")) = utf8 "agent" := by decide
  unfold cleanEntry
  rw [if_neg hsome]
  rcases h.role with hrole | hrole
  · rw [hrole, huser, if_pos rfl]
  · rw [hrole, hagent, if_neg (by decide), if_pos (Or.inl rfl)]

theorem partnerMessages_rendered {l : List CheckpointConversationEntry}
    (h : ∀ entry ∈ l, Rendered entry) :
    partnerMessages l = (ofPartner l).map fun entry => ⟨entry.role, trimBytes entry.text⟩ := by
  unfold partnerMessages ofPartner cleanCheckpointConversation
  induction l with
  | nil => rfl
  | cons entry l ih =>
    have hrest := ih fun e he => h e (mem_cons_of_mem entry he)
    rw [filterMap_cons_some (cleanEntry_rendered (h entry mem_cons_self)), filter_cons,
      filter_cons]
    by_cases hrole : entry.role = utf8 "user"
    · simp only [hrole, decide_true, if_true, map_cons]
      rw [hrest]
    · simp only [hrole, decide_false, Bool.false_eq_true, if_false]
      exact hrest

theorem partnerMessages_clean (l : List CheckpointConversationEntry) :
    partnerMessages (cleanCheckpointConversation l) = partnerMessages l := by
  unfold partnerMessages
  rw [clean_clean]

/-! ## One message -/

/-- Only messages that carry no note are cut, and something is kept of both ends. -/
def FairCuts (held : List Held) (cuts : List (Nat × Nat)) : Prop :=
  ∀ i edge message, (i, edge) ∈ cuts → held[i]? = some message →
    (middleTrim message.carried edge).length < message.carried.length →
      message.carried = message.written ∧ cutText message.written edge ≠ [] ∧
        tailText message.written edge ≠ []

/-- A fold leaves a message truthful: it comes as it went, or is cut fairly. -/
theorem truthful_of_cut {message : Held} {cuts : List (Nat × Nat)} {i : Nat}
    {entry entry' : CheckpointConversationEntry} (hentry : Message entry)
    (htext : entry.text = message.carried) (hcut : CutIn cuts i entry entry')
    (htruthful : message.Truthful)
    (hfair : ∀ edge, (i, edge) ∈ cuts →
      (middleTrim message.carried edge).length < message.carried.length →
        message.carried = message.written ∧ cutText message.written edge ≠ [] ∧
          tailText message.written edge ≠ []) :
    (Held.mk message.written (trimBytes entry'.text)).Truthful := by
  rcases hcut with rfl | ⟨edge, hmem, hless, rfl⟩
  · rw [trimBytes_of_trimmed hentry.trimmed, htext]
    exact htruthful
  · obtain ⟨hsame, hhead, htail⟩ := hfair edge hmem (htext ▸ hless)
    rw [hsame] at htext
    have hlong := middleTrim_lt hless
    have hends := length_cutText_le entry.text edge
    have hends' := length_tailText_le entry.text edge
    right
    refine ⟨cutText message.written edge, tailText message.written edge, prefix_cutText _ _,
      tailText_suffix _ _, ?_, ?_⟩
    · dsimp only
      rw [← htext]
      omega
    · change trimBytes (middleTrim entry.text edge) = _
      rw [middleTrim_ends hlong, htext,
        trimBytes_ends (htext ▸ hentry.trimmed) (prefix_cutText _ _) (tailText_suffix _ _), note_eq]
      unfold shownTrimmed
      rw [if_neg hhead, if_neg htail]
      simp only [append_assoc]

theorem readBack_truthful {kept : List Held} {entries fitted : List CheckpointConversationEntry}
    {cuts : List (Nat × Nat)} {turn : Bytes}
    (hentries : entries.map CheckpointConversationEntry.text = kept.map Held.carried)
    (hmessages : ∀ entry ∈ entries, Message entry) (hrendered : ∀ entry ∈ fitted, Rendered entry)
    (hread : extractMarkdownConversation turn = cleanCheckpointConversation fitted)
    (hcuts : ∀ i entry, entries[i]? = some entry → ∃ entry', (ofPartner fitted)[i]? = some entry' ∧
      CutIn cuts i entry entry')
    (htruthful : ∀ message ∈ kept, message.Truthful) (hfair : FairCuts kept cuts) :
    ∀ message ∈ readBack kept turn, message.Truthful := by
  intro message hmem
  unfold readBack at hmem
  rw [hread, partnerMessages_clean, partnerMessages_rendered hrendered] at hmem
  obtain ⟨i, hi, rfl⟩ := mem_iff_getElem.mp hmem
  rw [length_zipWith, length_map] at hi
  have hheld : i < kept.length := by omega
  have hentry : i < entries.length := by
    have hlength := congrArg List.length hentries
    rw [length_map, length_map] at hlength
    omega
  obtain ⟨entry', hafter, hcut⟩ := hcuts i _ (getElem?_eq_getElem hentry)
  have htext : entries[i].text = kept[i].carried := by
    have hsame : (entries.map CheckpointConversationEntry.text)[i]? =
        (kept.map Held.carried)[i]? := by rw [hentries]
    rw [getElem?_map, getElem?_map, getElem?_eq_getElem hentry,
      getElem?_eq_getElem hheld] at hsame
    exact Option.some.inj hsame
  obtain ⟨_, hat⟩ := List.getElem?_eq_some_iff.mp hafter
  rw [getElem_zipWith, getElem_map, hat]
  exact truthful_of_cut (hmessages _ (getElem_mem hentry)) htext hcut
    (htruthful _ (getElem_mem hheld)) fun edge hedge =>
      hfair i edge _ hedge (getElem?_eq_getElem hheld)

/-! ## One fold -/

theorem fit_rendered {conversation : List CheckpointConversationEntry}
    (hclean : ∀ entry ∈ conversation, entry.Clean) (budget : Int) (recoverable : Bool) :
    ∀ entry ∈ fitCheckpointConversation conversation budget recoverable, Rendered entry := by
  obtain ⟨shed, rest, hsplit, hfitted, hshown, _⟩ := fit_spec budget hclean recoverable
  intro entry hentry
  refine ⟨?_, hshown entry hentry⟩
  have hmem := mem_map_of_mem (f := CheckpointConversationEntry.role) hentry
  rw [roles_of_fitted hfitted] at hmem
  obtain ⟨source, hsource, hrole⟩ := mem_map.mp hmem
  have hin : source ∈ conversation := by
    rw [hsplit]
    rcases mem_append.mp hsource with hsource | hsource
    · exact mem_append_left _ (mem_filter.mp hsource).1
    · exact mem_append_right _ hsource
  rw [← hrole]
  exact (hclean source hin).role

theorem length_carriedMessages {kept : List CheckpointConversationEntry}
    (hmessages : ∀ entry ∈ kept, Message entry) (recoverable : Bool) (ceiling : Int) :
    (carriedMessages kept recoverable ceiling).length = kept.length := by
  have htrim : ∀ (written : Bytes) (partner : List CheckpointConversationEntry),
      (trimNewest ceiling written partner).length = partner.length := by
    intro written partner
    unfold trimNewest
    split
    · rfl
    · next newest hnewest =>
      dsimp only
      split
      · have hpos := length_pos_iff.mpr (ne_nil_of_mem (mem_of_getLast? hnewest))
        rw [length_append, length_dropLast, length_singleton]
        omega
      · rfl
  unfold carriedMessages
  dsimp only
  generalize (if 0 < ceiling then min maxCheckpointChars ceiling else maxCheckpointChars) = budget
  split
  · rw [htrim, (fit_messages hmessages _ recoverable).2]
  · rw [(fit_messages hmessages _ recoverable).2]

theorem carried_messages {kept : List CheckpointConversationEntry}
    (hmessages : ∀ entry ∈ kept, Message entry) (recoverable : Bool) (ceiling : Int) :
    ∀ entry ∈ carriedMessages kept recoverable ceiling,
      entry.role = utf8 "user" ∧ Shown entry := by
  intro entry hentry
  obtain ⟨i, hi, rfl⟩ := mem_iff_getElem.mp hentry
  have hlt := hi
  rw [length_carriedMessages hmessages] at hlt
  have hmessage := hmessages _ (getElem_mem hlt)
  obtain ⟨entry', hafter, hcut⟩ :=
    carry_cuts hmessages recoverable ceiling (getElem?_eq_getElem hlt)
  rw [getElem?_eq_getElem hi] at hafter
  rw [Option.some.inj hafter]
  rcases hcut with rfl | ⟨edge, _, _, rfl⟩
  · exact ⟨hmessage.role, hmessage.shown⟩
  · exact ⟨hmessage.role, hmessage.shown_middle edge⟩

theorem FoldCall.left_summary (conversation : List CheckpointConversationEntry)
    (m : Option CompactionMeta) (reply : Bytes) (ceiling : Int) :
    (partnerMessages (FoldCall.summary conversation m reply ceiling).conversation).drop
        (FoldCall.summary conversation m reply ceiling).left =
      carriedOf (partnerMessages conversation) (hasTranscript m) ceiling := by
  unfold FoldCall.left FoldCall.conversation partnerMessagesMarkdown carriedOf
  dsimp only
  rw [length_take, Nat.min_eq_left (Nat.sub_le _ _)]

/-- The messages that a fold keeps. -/
theorem FoldCall.kept_messages {held : List Held} {call : FoldCall}
    (collected : partnerMessages call.conversation = carriedEntries held) :
    (partnerMessages call.conversation).drop call.left = carriedEntries (held.drop call.left) := by
  rw [collected]
  exact (map_drop).symm

/-- A fold whose turn is read back leaves every message truthful, if its cuts are fair. -/
theorem FoldCall.truthful {held : List Held} {call : FoldCall}
    (collected : partnerMessages call.conversation = carriedEntries held)
    (hread : extractMarkdownConversation call.turn = cleanCheckpointConversation call.fitted)
    (htruthful : ∀ message ∈ held, message.Truthful)
    (hfair : FairCuts (held.drop call.left) call.cuts) :
    ∀ message ∈ readBack (held.drop call.left) call.turn, message.Truthful := by
  have hkept := call.kept_messages collected
  have htexts := congrArg (List.map CheckpointConversationEntry.text) hkept
  have hmessages : ∀ entry ∈ (partnerMessages call.conversation).drop call.left, Message entry :=
    fun e he => partnerMessages_message _ e (mem_of_mem_drop he)
  have hfold : (∀ entry ∈ call.fitted, Rendered entry) ∧
      ∀ i entry, ((partnerMessages call.conversation).drop call.left)[i]? = some entry →
        ∃ entry', (ofPartner call.fitted)[i]? = some entry' ∧ CutIn call.cuts i entry entry' := by
    cases call with
    | checkpoint data m maxChars =>
      have hclean : ∀ entry ∈ cleanCheckpointConversation data.conversation, entry.Clean :=
        fun _ => mem_clean
      exact ⟨fit_rendered hclean _ _, fun i entry hentry => fit_cuts hclean _ _ hentry⟩
    | summary conversation m reply ceiling =>
      rw [left_summary] at hmessages ⊢
      have hcarried := carried_messages hmessages (hasTranscript m) ceiling
      have hall : ofPartner (FoldCall.summary conversation m reply ceiling).fitted =
          (FoldCall.summary conversation m reply ceiling).fitted :=
        filter_eq_self.mpr fun e he => decide_eq_true (hcarried e he).1
      refine ⟨fun e he => ⟨Or.inl (hcarried e he).1, (hcarried e he).2⟩, fun i entry hentry => ?_⟩
      rw [hall]
      exact carry_cuts hmessages (hasTranscript m) ceiling hentry
  refine readBack_truthful (htexts.trans map_map) hmessages hfold.1 hread hfold.2
    (fun message hmem => htruthful message (mem_of_mem_drop hmem)) hfair

end Evener.Contextmgr
