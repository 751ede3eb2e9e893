/-
  What the notes of trimmed messages say, over every sequence of folds.

  A note counts the bytes of the text it was put into. That is the message as it was written only
  if no earlier fold has cut it already.
-/
import Evener.Contextmgr.FoldRuns

namespace Evener.Contextmgr

open Evener.Lib FenceTracker List

/-! ## Fair folds -/

/-- The size of the messages as they are carried. -/
def carriedSize (held : List Held) : Int :=
  (renderCheckpointConversation (carriedEntries held)).length

/-- Over the budget, what a trim shortens carries no note, and a character of it ends within the
    edge that is kept. -/
def FairTrim (budget : Int) (held : List Held) : Prop :=
  budget < carriedSize held → ∀ message ∈ held,
    (middleTrim message.carried partnerMessageEdgeChars).length < message.carried.length →
      message.carried = message.written ∧ cutText message.written partnerMessageEdgeChars ≠ []

/-- The newest messages, as many as fit the ceiling, or one. -/
def WithinCeiling (ceiling : Int) (kept held : List Held) : Prop :=
  kept <:+ held ∧ (0 < ceiling → carriedSize kept ≤ ceiling ∨ kept.length = 1)

/-- Over the ceiling, the newest message alone carries no note, and the ceiling leaves something of
    both its ends. -/
def FairNewest (ceiling : Int) (held : List Held) : Prop :=
  0 < ceiling → ∀ newest, held.getLast? = some newest → ceiling < carriedSize [newest] →
    newest.carried = newest.written ∧
      cutText newest.written (ceilingEdge ceiling newest.written) ≠ [] ∧
      tailText newest.written (ceilingEdge ceiling newest.written) ≠ []

/-- In the fixed part every fence closes, and no line outside of one reads like the heading of the
    conversation. -/
def PlainFixed (data : CheckpointData) (m : Option CompactionMeta) : Prop :=
  ∃ fixed, fixedPart data m = joinLines fixed ∧ Unbroken fixed ∧
    Balanced (· ≠ checkpointConversationHeading) fixed

/-- What a fold may be given: nothing but the conversation reads like one, and no message that
    carries a note is over a bound. -/
def Fair (held : List Held) : FoldCall → Prop
  | .checkpoint data m maxChars => PlainFixed data m ∧
      (hasTranscript m = true → FairTrim (variableBudget data m maxChars) held)
  | .summary _ m _ ceiling => (∀ own ∈ m, newline ∉ own.sessionID) ∧
      (hasTranscript m = true →
        (∀ kept, WithinCeiling ceiling kept held → FairTrim
          (if 0 < ceiling then min maxCheckpointChars ceiling else maxCheckpointChars) kept) ∧
        FairNewest ceiling held)

variable {held : List Held} {call : FoldCall}

/-- The turn of a fair fold is read back. -/
theorem Fair.read (h : Fair held call) :
    extractMarkdownConversation call.turn = cleanCheckpointConversation call.fitted := by
  cases call with
  | checkpoint data m maxChars =>
    obtain ⟨⟨fixed, hfixed, hunbroken, hplain⟩, _⟩ := h
    exact checkpoint_extracted hfixed hunbroken hplain
  | summary conversation m reply ceiling => exact summaryTurn_extracted m _ reply _ h.1

/-- A trim to edges or more, over a fair budget. -/
theorem FairTrim.cut {budget : Int} (h : FairTrim budget held) (hover : budget < carriedSize held)
    {message : Held} (hmem : message ∈ held) {edge : Nat} (hedge : partnerMessageEdgeChars ≤ edge)
    (hless : (middleTrim message.carried edge).length < message.carried.length) :
    message.carried = message.written ∧ cutText message.written edge ≠ [] ∧
      tailText message.written edge ≠ [] := by
  obtain ⟨hsame, hhead⟩ := h hover message hmem (middleTrim_shorter hedge hless)
  rw [hsame] at hless
  have hlong := middleTrim_lt hless
  have htail := @le_length_tailText message.written edge (by omega)
  have hthousand : partnerMessageEdgeChars = 1000 := rfl
  refine ⟨hsame, fun hnil => hhead ?_, fun hnil => ?_⟩
  · have hprefix := cutText_mono message.written hedge
    rw [hnil] at hprefix
    exact prefix_nil.mp hprefix
  · rw [hnil, length_nil] at htail
    omega

/-- The cut of the newest message, over a fair ceiling. -/
theorem FairNewest.cut {ceiling : Int} (h : FairNewest ceiling held) (hpos : 0 < ceiling)
    {newest : Held} (hlast : held.getLast? = some newest) (hover : ceiling < carriedSize [newest])
    {edge : Nat} (hedge : ceilingEdge ceiling newest.carried ≤ edge)
    (hless : (middleTrim newest.carried edge).length < newest.carried.length) :
    newest.carried = newest.written ∧ cutText newest.written edge ≠ [] ∧
      tailText newest.written edge ≠ [] := by
  obtain ⟨hsame, hhead, htail⟩ := h hpos newest hlast hover
  rw [hsame] at hedge hless
  have hlong := middleTrim_lt hless
  refine ⟨hsame, fun hnil => hhead ?_, fun hnil => htail ?_⟩
  · have hprefix := cutText_mono newest.written hedge
    rw [hnil] at hprefix
    exact prefix_nil.mp hprefix
  · have hsuffix := @tailText_mono newest.written _ _ hedge (by omega)
    rw [hnil] at hsuffix
    exact suffix_nil.mp hsuffix

theorem Fair.cuts (collected : partnerMessages call.conversation = carriedEntries held)
    (h : Fair held call) : FairCuts (held.drop call.left) call.cuts := by
  intro i edge message hcut hmessage hless
  have hmem := mem_of_getElem? hmessage
  cases call with
  | checkpoint data m maxChars =>
    obtain ⟨hrecoverable, hover, hedge⟩ := mem_fitCuts (fun _ => @mem_clean data.conversation _) hcut
    rcases shedNotes_fits (variableBudget data m maxChars)
      (renderCheckpointConversation (cleanCheckpointConversation data.conversation)).length
      data.workingNotes with hnone | hroom
    · change keptNotes data m maxChars = [] at hnone
      change _ < ((renderCheckpointConversation (partnerMessages data.conversation)).length : Int)
        at hover
      rw [show partnerMessages data.conversation = carriedEntries held from collected, hnone] at hover
      change _ - 0 < carriedSize held at hover
      exact (h.2 hrecoverable).cut (by omega) hmem hedge hless
    · -- what fits beside the notes is not cut
      change _ + ((renderCheckpointWorkingNotes (keptNotes data m maxChars)).length : Int) ≤ _ at hroom
      change (i, edge) ∈ fitCuts _ _ _ at hcut
      rw [fitCuts_fitting (Int.le_sub_right_of_add_le hroom)] at hcut
      exact absurd hcut not_mem_nil
  | summary conversation m reply ceiling =>
    have hkept := (FoldCall.summary conversation m reply ceiling).kept_messages collected
    rw [FoldCall.left_summary] at hkept
    have hmessages : ∀ entry ∈ carriedEntries
        (held.drop (FoldCall.summary conversation m reply ceiling).left), Message entry := by
      rw [← hkept]
      exact fun e he => partnerMessages_message _ e (mem_of_mem_drop he)
    have hfits (hpos : 0 < ceiling) := carriedOf_fits
      (fun e he => (partnerMessages_message conversation e he).shown) (hasTranscript m) hpos
    rw [hkept] at hfits
    change (i, edge) ∈ carryCuts (carriedOf (partnerMessages conversation) (hasTranscript m) ceiling)
      (hasTranscript m) ceiling at hcut
    rw [hkept] at hcut
    generalize hlast : held.drop (FoldCall.summary conversation m reply ceiling).left = kept
      at hmessages hfits hcut hmessage hmem
    have hsuffix : kept <:+ held := hlast ▸ drop_suffix _ held
    rcases mem_carryCuts hmessages hcut with ⟨hrecoverable, hover, hedge⟩ | ⟨hpos, hover, hnewest⟩
    · refine ((h.2 hrecoverable).1 kept ⟨hsuffix, fun hpos => ?_⟩).cut hover hmem hedge hless
      refine (hfits hpos).imp_right fun ⟨_, newest, hone⟩ => ?_
      obtain ⟨only, rfl, _⟩ := map_eq_singleton_iff.mp hone
      rfl
    · obtain ⟨hrecoverable, newest, hone⟩ := (hfits hpos).resolve_left (by omega)
      obtain ⟨only, rfl, rfl⟩ := map_eq_singleton_iff.mp hone
      obtain rfl : message = only := mem_singleton.mp hmem
      have hnewest' : held.getLast? = some message := by
        obtain ⟨front, rfl⟩ := hsuffix
        exact getLast?_concat
      have hedge := hnewest ⟨utf8 "user", message.carried⟩ rfl
      exact FairNewest.cut (h.2 hrecoverable).2 hpos hnewest' hover hedge hless

/-- As long as every fold is given what it reads back, and none is to cut a message that carries a
    note already, every note counts what is left out of the message as it was written. -/
theorem notes_stay_truthful {held : List Held} (h : Carries Fair held) :
    ∀ message ∈ held, message.Truthful := by
  induction h with
  | start => exact fun _ hmem => absurd hmem not_mem_nil
  | written text some _ ih =>
    intro message hmem
    rcases mem_append.mp hmem with hmem | hmem
    · exact ih message hmem
    · rw [mem_singleton.mp hmem]
      exact Or.inl rfl
  | folded call _ collected fair ih => exact call.truthful collected fair.read ih (fair.cuts collected)

/-! ## Two folds of one message -/

/-- A long message alone is cut to its edges by a small budget. -/
theorem fit_alone {entry : CheckpointConversationEntry} (h : Message entry)
    (hshort : (middleTrim entry.text partnerMessageEdgeChars).length < entry.text.length) :
    fitCheckpointConversation [entry] 1000 true = [entry.middle partnerMessageEdgeChars] := by
  have hlong := middleTrim_lt hshort
  have hedge : partnerMessageEdgeChars = 1000 := rfl
  have hsize := render_message h.shown h.role
  rw [trimBytes_of_trimmed h.trimmed] at hsize
  have htext : textSize entry.text = 2 * fenceLength entry.text + entry.text.length + 8 := rfl
  have hshed : shedFit 1000 [entry] = ⟨(renderCheckpointConversation [entry]).length, [entry]⟩ :=
    if_neg fun hreply => hreply.2 h.role
  have hover : (1000 : Int) < (shedFit 1000 [entry]).rendered := by
    rw [hshed]
    dsimp only
    omega
  have hplaces : longMessages [entry] = [0] := by
    unfold longMessages
    simp only [length_singleton, range_one]
    rw [filter_cons_of_pos (by simpa using hlong)]
    rfl
  have hkeep : (keepOf 1000 (renderCheckpointConversation [entry]).length entry.text / 2).toNat =
      partnerMessageEdgeChars := by
    refine edge_floor ?_
    unfold keepOf
    omega
  rw [fit_trimmed 1000 hover]
  rw [hshed] at hover ⊢
  rw [hplaces, trimLongest, if_neg (Int.not_le.mpr hover)]
  simp only [getElem?_cons_zero, hkeep]
  rw [if_neg (Nat.not_le.mpr hshort)]
  rfl

def keptTranscript : Option CompactionMeta := some { sessionID := utf8 "s1", transcriptKept := true }

/-- A checkpoint of one message. -/
def checkpointOf (text : Bytes) : CheckpointData := { conversation := [⟨utf8 "user", text⟩] }

theorem checkpointOf_clean {text : Bytes} (h : Message ⟨utf8 "user", text⟩) :
    cleanCheckpointConversation (checkpointOf text).conversation = [⟨utf8 "user", text⟩] :=
  clean_of_clean fun entry hentry => by
    rw [mem_singleton.mp hentry]
    exact h.clean

theorem checkpointOf_collected (written : Bytes) {text : Bytes} (h : Message ⟨utf8 "user", text⟩) :
    partnerMessages (FoldCall.checkpoint (checkpointOf text) keptTranscript 1000).conversation =
      carriedEntries [⟨written, text⟩] := by
  change partnerMessages (checkpointOf text).conversation = _
  unfold partnerMessages
  rw [checkpointOf_clean h]
  rfl

theorem checkpointOf_plain (text : Bytes) : PlainFixed (checkpointOf text) keptTranscript := by
  have hfixed : fixedPart (checkpointOf text) keptTranscript =
      joinLines [(fixedPart {} keptTranscript).dropLast] := by
    rw [show fixedPart (checkpointOf text) keptTranscript = fixedPart {} keptTranscript from rfl]
    decide
  refine ⟨_, hfixed, fun line hline => ?_, .line (Plain.of_start (b := 69) (by decide)) ?_ .nil⟩
  · rw [mem_singleton.mp hline]
    decide
  · decide

/-- A checkpoint within a small limit cuts its one message, and gives back what is left. -/
theorem fold_alone (written : Bytes) {text : Bytes} (h : Message ⟨utf8 "user", text⟩)
    (hshort : (middleTrim text partnerMessageEdgeChars).length < text.length) :
    readBack [⟨written, text⟩] (formatCheckpoint (checkpointOf text) keptTranscript 1000) =
      [⟨written, trimBytes (middleTrim text partnerMessageEdgeChars)⟩] := by
  have hbudget : variableBudget (checkpointOf text) keptTranscript 1000 -
      (renderCheckpointWorkingNotes (keptNotes (checkpointOf text) keptTranscript 1000)).length =
      1000 := by
    have hnotes : (renderCheckpointWorkingNotes
      (keptNotes (checkpointOf text) keptTranscript 1000)).length = 0 := rfl
    have hframe : 0 ≤ frame (checkpointOf text) keptTranscript := by
      unfold frame
      omega
    have hfloor : minVariableBudget = 1000 := rfl
    unfold variableBudget
    omega
  have hkept : keptConversation (checkpointOf text) keptTranscript 1000 =
      [(⟨utf8 "user", text⟩ : CheckpointConversationEntry).middle partnerMessageEdgeChars] := by
    unfold keptConversation
    rw [checkpointOf_clean h, hbudget]
    exact fit_alone h hshort
  have hread : extractMarkdownConversation (formatCheckpoint (checkpointOf text) keptTranscript 1000) =
      cleanCheckpointConversation (keptConversation (checkpointOf text) keptTranscript 1000) := by
    obtain ⟨_, hfixed, hunbroken, hplain⟩ := checkpointOf_plain text
    exact checkpoint_extracted hfixed hunbroken hplain
  unfold readBack
  rw [hread, hkept, partnerMessages_clean, partnerMessages_rendered fun entry hentry => by
    rw [mem_singleton.mp hentry]
    exact ⟨Or.inl rfl, h.shown_middle _⟩]
  rfl

def letters (n : Nat) : Bytes := List.replicate n 97

/-- A message of 3000 letters. -/
def longMessage : Bytes := letters 1000 ++ letters 1000 ++ letters 1000

/-- What one fold leaves of it. -/
def cutOnce : Bytes := letters 1000 ++ trimmedMessageNote 1000 ++ letters 1000

/-- What the next fold leaves: the note counts the note before it. -/
def cutTwice : Bytes := letters 1000 ++ trimmedMessageNote 108 ++ letters 1000

theorem newline_not_mem_letters (n : Nat) : newline ∉ letters n := by
  intro hmem
  exact absurd (eq_of_mem_replicate hmem) (by decide)

@[simp] theorem length_letters (n : Nat) : (letters n).length = n := length_replicate

theorem letters_message (middle : Bytes) :
    Message ⟨utf8 "user", letters 1000 ++ middle ++ letters 1000⟩ := by
  refine ⟨rfl, Trimmed.of_ends (b := 97) (c := 97) rfl ?_ (by decide) (by decide),
    cons_ne_nil _ _⟩
  have hlast : letters 1000 = letters 999 ++ [97] := replicate_succ'
  conv_lhs => rw [hlast, ← append_assoc]
  rw [getLast?_concat]

/-- A text between letters is cut at the letters. -/
theorem middleTrim_letters {middle : Bytes} {b : UInt8} (hmiddle : middle.head? = some b)
    (hb : runeStart b = true) :
    middleTrim (letters 1000 ++ middle ++ letters 1000) partnerMessageEdgeChars =
      letters 1000 ++ trimmedMessageNote middle.length ++ letters 1000 := by
  obtain ⟨rest, rfl⟩ : ∃ rest, middle = b :: rest := by
    cases middle with
    | nil => cases hmiddle
    | cons c rest => exact ⟨rest, by rw [Option.some.inj hmiddle]⟩
  have hlength : (letters 1000 ++ b :: rest ++ letters 1000).length = 2001 + rest.length := by
    simp
    omega
  have hedge : partnerMessageEdgeChars = 1000 := rfl
  have hhead : cutText (letters 1000 ++ b :: rest ++ letters 1000) 1000 = letters 1000 := by
    rw [cutText_of_start (b := b) ?_ hb, append_assoc, take_left' (length_letters 1000)]
    rw [append_assoc, getElem?_append_right (by simp), length_letters]
    rfl
  have htail : tailText (letters 1000 ++ b :: rest ++ letters 1000) 1000 = letters 1000 := by
    have hfront : (letters 1000 ++ b :: rest).length = 2001 + rest.length - 1000 := by
      simp
      omega
    rw [tailText_of_start (b := 97) ?_ (by decide), hlength, drop_left' hfront]
    rw [hlength, getElem?_append_right (Nat.le_of_eq hfront), hfront, Nat.sub_self]
    rfl
  rw [middleTrim_ends (by omega), hedge, hhead, htail, hlength, length_letters, length_cons,
    show 2001 + rest.length - 1000 - 1000 = rest.length + 1 by omega]

theorem shorter_with_note {middle : Bytes} (h : (trimmedMessageNote middle.length).length < middle.length)
    {b : UInt8} (hmiddle : middle.head? = some b) (hb : runeStart b = true) :
    (middleTrim (letters 1000 ++ middle ++ letters 1000) partnerMessageEdgeChars).length <
      (letters 1000 ++ middle ++ letters 1000).length := by
  rw [middleTrim_letters hmiddle hb]
  simp only [length_append, length_letters]
  omega

theorem length_note_of {n k : Nat} (h : (Nat.toDigits 10 n).length = k) :
    (trimmedMessageNote n).length = 104 + k := by
  rw [length_note, length_decimal, h]

theorem longMessage_held (ok : List Held → FoldCall → Prop) :
    Carries ok [⟨longMessage, longMessage⟩] := by
  have hmessage := letters_message (letters 1000)
  have hclean : trimBytes longMessage = longMessage := trimBytes_of_trimmed hmessage.trimmed
  have hrun := @Carries.written ok _ longMessage (by rw [hclean]; exact hmessage.some) .start
  rwa [hclean, nil_append] at hrun

theorem fold_longMessage :
    readBack [⟨longMessage, longMessage⟩]
      (formatCheckpoint (checkpointOf longMessage) keptTranscript 1000) =
        [⟨longMessage, cutOnce⟩] := by
  have hnote : (trimmedMessageNote (letters 1000).length).length = 108 := by
    rw [length_letters, length_note_of (k := 4) (by decide)]
  have hcut := @middleTrim_letters (letters 1000) 97 rfl (by decide)
  have hfold := fold_alone longMessage (letters_message (letters 1000))
    (shorter_with_note (b := 97) (by rw [hnote, length_letters]; omega) rfl (by decide))
  rw [hcut, length_letters, trimBytes_of_trimmed (letters_message _).trimmed] at hfold
  exact hfold

/-- A fair fold of a long message. -/
theorem notes_stay_truthful_once : (⟨longMessage, cutOnce⟩ : Held).Truthful := by
  have hrun := Carries.folded (.checkpoint (checkpointOf longMessage) keptTranscript 1000)
    (longMessage_held Fair) (checkpointOf_collected longMessage (letters_message (letters 1000)))
    ⟨checkpointOf_plain longMessage, fun _ _ message hmem _ => by
      rw [mem_singleton.mp hmem]
      refine ⟨rfl, fun hnil => ?_⟩
      have hstart := cutText_of_start (s := longMessage) (n := 1000) (b := 97) (by decide +kernel)
        (by decide)
      change cutText longMessage 1000 = [] at hnil
      rw [hstart] at hnil
      exact absurd (congrArg List.length hnil) (by decide +kernel)⟩
  refine notes_stay_truthful hrun _ ?_
  change (⟨longMessage, cutOnce⟩ : Held) ∈ readBack [⟨longMessage, longMessage⟩]
    (formatCheckpoint (checkpointOf longMessage) keptTranscript 1000)
  rw [fold_longMessage]
  exact mem_singleton_self _

/-- What stands around a note, when neither end has a newline. -/
theorem ends_of_note {head tail : Bytes} (hhead : newline ∉ head) (htail : newline ∉ tail) (n : Nat) :
    (head ++ trimmedMessageNote n ++ tail).takeWhile (· != newline) = head ∧
      (head ++ trimmedMessageNote n ++ tail).reverse.takeWhile (· != newline) = tail.reverse := by
  have hend : ∀ (l : Bytes), newline ∉ l → ∀ rest,
      (l ++ newline :: rest).takeWhile (· != newline) = l := by
    intro l hl rest
    rw [takeWhile_append_of_pos fun b hb => by simpa using fun heq : b = newline => hl (heq ▸ hb)]
    simp
  rw [note_eq]
  constructor
  · have := hend head hhead (newline :: (noteLine n ++ gap ++ tail))
    simpa [gap] using this
  · have := hend tail.reverse (by simpa using htail)
      (newline :: ((noteLine n).reverse ++ gap.reverse ++ head.reverse))
    simpa [gap] using this

/-- The next fold cuts the message again, and its note counts the bytes of the note before it. -/
theorem note_counts_note :
    Carries (fun _ _ => True) [⟨longMessage, cutTwice⟩] ∧
      ¬ (Held.mk longMessage cutTwice).Truthful := by
  have hnote : (trimmedMessageNote 1000).length = 108 := length_note_of (k := 4) (by decide)
  have hnote' : (trimmedMessageNote 108).length = 107 := length_note_of (k := 3) (by decide)
  have hfold := fold_alone longMessage (letters_message (trimmedMessageNote 1000))
    (shorter_with_note (b := newline) (by rw [hnote, hnote']; omega) rfl (by decide))
  rw [middleTrim_letters (b := newline) rfl (by decide), hnote,
    trimBytes_of_trimmed (letters_message _).trimmed] at hfold
  have honce := Carries.folded (.checkpoint (checkpointOf longMessage) keptTranscript 1000)
    (longMessage_held fun _ _ => True)
    (checkpointOf_collected longMessage (letters_message (letters 1000))) trivial
  change Carries _ (readBack [⟨longMessage, longMessage⟩]
    (formatCheckpoint (checkpointOf longMessage) keptTranscript 1000)) at honce
  rw [fold_longMessage] at honce
  have htwice := honce.folded (.checkpoint (checkpointOf cutOnce) keptTranscript 1000)
    (checkpointOf_collected longMessage (letters_message (trimmedMessageNote 1000))) trivial
  refine ⟨hfold ▸ htwice, ?_⟩
  have hplain : newline ∉ longMessage := by
    simp [longMessage, newline_not_mem_letters]
  intro htruthful
  rcases htruthful with hsame | ⟨head, tail, hhead, htail, _, htext⟩
  · refine hplain ?_
    rw [← (show cutTwice = longMessage from hsame)]
    unfold cutTwice
    rw [note_eq]
    simp [gap]
  · dsimp only at hhead htail htext
    obtain ⟨hfront, hback⟩ := ends_of_note (fun hmem => hplain (hhead.subset hmem))
      (fun hmem => hplain (htail.subset hmem)) (longMessage.length - head.length - tail.length)
    obtain ⟨hedge, hedge'⟩ := ends_of_note (newline_not_mem_letters 1000)
      (newline_not_mem_letters 1000) 108
    change cutTwice.takeWhile (· != newline) = letters 1000 at hedge
    change cutTwice.reverse.takeWhile (· != newline) = (letters 1000).reverse at hedge'
    rw [← htext, hedge] at hfront
    rw [← htext, hedge'] at hback
    rw [← hfront, ← reverse_injective hback] at htext
    have hlength : longMessage.length = 3000 := by simp [longMessage]
    rw [hlength, length_letters] at htext
    have hcount := append_cancel_left (append_cancel_right htext)
    exact absurd hcount (by decide)

end Evener.Contextmgr
