/-
  Mentions of drained input: every mention of a kept entry still stands before the text that it
  stood before, counted in UTF-16 units, after one drain and after a drain of drains.
-/
import Evener.ClientMutation.Records
import Mathlib.Data.List.Forall2
import Mathlib.Data.List.Induction

namespace Evener.ClientMutation

open List

/-! ## UTF-16 units -/

def unitsOf (c : Char) : List Nat :=
  if c.toNat < 0x10000 then [c.toNat]
  else [0xD800 + (c.toNat - 0x10000) / 0x400, 0xDC00 + (c.toNat - 0x10000) % 0x400]

/-- `utf16.Encode([]rune(text))`. -/
def utf16 (text : String) : List Nat := text.toList.flatMap unitsOf

theorem utf16_append (a b : String) : utf16 (a ++ b) = utf16 a ++ utf16 b := by
  unfold utf16
  rw [String.toList_append, flatMap_append]

theorem utf16Length_eq (text : String) : utf16Length text = ((utf16 text).length : Int) := by
  unfold utf16Length utf16
  induction text.toList with
  | nil => rfl
  | cons c l ih =>
    rw [map_cons, sum_cons, flatMap_cons, length_append, ih]
    have hunits : ((unitsOf c).length : Int) = if c.toNat < 0x10000 then (1 : Int) else 2 := by
      unfold unitsOf
      split <;> rfl
    rw [Int.natCast_add, hunits]

theorem utf16Length_append (a b : String) : utf16Length (a ++ b) = utf16Length a + utf16Length b := by
  rw [utf16Length_eq, utf16Length_eq, utf16Length_eq, utf16_append, length_append,
    Int.natCast_add]

/-! ## Mentions and their texts -/

/-- A mention beside the text that it is of. -/
abbrev Source := String × InputMention

def Inside (s : Source) : Prop := 0 ≤ s.2.offset ∧ s.2.offset ≤ utf16Length s.1

instance (s : Source) : Decidable (Inside s) :=
  inferInstanceAs (Decidable (0 ≤ s.2.offset ∧ s.2.offset ≤ utf16Length s.1))

/-- The same mention in another text, before all that it was before in its own. -/
structure Refers (s t : Source) : Prop where
  kind : t.2.kind = s.2.kind
  name : t.2.name = s.2.name
  inside : Inside t
  text : (utf16 s.1).drop s.2.offset.toNat <+: (utf16 t.1).drop t.2.offset.toNat

theorem Refers.refl {s : Source} (h : Inside s) : Refers s s := ⟨rfl, rfl, h, prefix_refl _⟩

theorem Refers.trans {s t u : Source} (h : Refers s t) (h' : Refers t u) : Refers s u :=
  ⟨h'.kind.trans h.kind, h'.name.trans h.name, h'.inside, h.text.trans h'.text⟩

/-- Text behind a mention's own changes nothing. -/
theorem Refers.append {s : Source} {text : String} {m : InputMention} (h : Refers s (text, m))
    (more : String) : Refers s (text ++ more, m) := by
  obtain ⟨hlow, hhigh⟩ := h.inside
  refine ⟨h.kind, h.name, ⟨hlow, ?_⟩, h.text.trans ?_⟩
  · show m.offset ≤ utf16Length (text ++ more)
    rw [utf16Length_append, utf16Length_eq more]
    have hle : m.offset ≤ utf16Length text := hhigh
    omega
  · show (utf16 text).drop m.offset.toNat <+: (utf16 (text ++ more)).drop m.offset.toNat
    have hle : m.offset.toNat ≤ (utf16 text).length := by
      have hbound : m.offset ≤ utf16Length text := hhigh
      rw [utf16Length_eq] at hbound
      omega
    rw [utf16_append, drop_append_of_le_length hle]
    exact prefix_append _ _

def InputMention.shift (offset : Int) (m : InputMention) : InputMention :=
  { m with offset := m.offset + offset }

/-- Text before a mention's own moves the mention by its length. -/
theorem Refers.shift {s : Source} {text : String} {m : InputMention} (h : Refers s (text, m))
    (front : String) : Refers s (front ++ text, m.shift (utf16Length front)) := by
  obtain ⟨hlow, hhigh⟩ := h.inside
  have hlow' : 0 ≤ m.offset := hlow
  have hhigh' : m.offset ≤ utf16Length text := hhigh
  have hfront := utf16Length_eq front
  refine ⟨h.kind, h.name, ⟨?_, ?_⟩, h.text.trans ?_⟩
  · show 0 ≤ m.offset + utf16Length front
    omega
  · show m.offset + utf16Length front ≤ utf16Length (front ++ text)
    rw [utf16Length_append]
    omega
  · show (utf16 text).drop m.offset.toNat <+:
      (utf16 (front ++ text)).drop (m.offset + utf16Length front).toNat
    have hsum : (m.offset + utf16Length front).toNat = (utf16 front).length + m.offset.toNat := by
      omega
    rw [utf16_append, hsum, drop_append, drop_eq_nil_of_le (Nat.le_add_right _ _),
      Nat.add_sub_cancel_left]
    exact prefix_refl _

/-! ## One entry -/

def InputItem.sources (item : InputItem) : List Source :=
  if item.type = "text" then item.mentions.map fun m => (item.text, m) else []

/-- The mentions of an input, each with the text item that it is in. -/
def sources (input : Input) : List Source := input.flatMap InputItem.sources

def textOf (input : Input) : String :=
  input.foldl (fun text item => if item.type = "text" then text ++ item.text else text) ""

def imagesOf (input : Input) : List ImageAttachment :=
  (input.filter fun item => item.type = "image").map fun item =>
    { mediaType := item.mediaType, data := item.data, name := item.name }

def skillNamesOf (input : Input) : List String :=
  (input.filter fun item => item.type = "skill").map InputItem.name

def commandNamesOf (input : Input) : List String :=
  (input.filter fun item => item.type = "command").map InputItem.name

/-- The queued input of an entry holds all of its input. -/
structure Queues (input : Input) (queued : QueuedInput) : Prop where
  text : queued.text = textOf input
  images : queued.images = imagesOf input
  skillNames : queued.skillNames = skillNamesOf input
  commandNames : queued.commandNames = commandNamesOf input
  mentions : List.Forall₂ (fun s m => Refers s (queued.text, m)) (sources input) queued.mentions

theorem textOf_append (input : Input) (item : InputItem) :
    textOf (input ++ [item]) = if item.type = "text" then textOf input ++ item.text else textOf input := by
  unfold textOf
  rw [foldl_append]
  rfl

theorem sources_append (input input' : Input) :
    sources (input ++ input') = sources input ++ sources input' := flatMap_append ..

theorem queued_spec (entry : QueueEntry) (hinside : ∀ s ∈ sources entry.input, Inside s) :
    Queues entry.input (queuedInputFromClientMutation entry) := by
  unfold queuedInputFromClientMutation
  generalize entry.input = input at hinside ⊢
  induction input using List.reverseRecOn with
  | nil => exact ⟨rfl, rfl, rfl, rfl, .nil⟩
  | append_singleton input item ih =>
    rw [sources_append] at hinside
    have hold := ih fun s hs => hinside s (mem_append_left _ hs)
    have hnew : ∀ s ∈ item.sources, Inside s := fun s hs =>
      hinside s (mem_append_right _ (by simpa [sources] using hs))
    rw [foldl_append]
    generalize List.foldl _ _ input = queued at hold
    rw [foldl_cons, foldl_nil]
    have hother : item.type ≠ "text" → sources (input ++ [item]) = sources input := by
      intro htype
      rw [sources_append]
      simp [sources, InputItem.sources, htype]
    split
    · next htype =>
      constructor
      case text => rw [textOf_append, if_pos htype, hold.text]
      case images => simpa [imagesOf, htype] using hold.images
      case skillNames => simpa [skillNamesOf, htype] using hold.skillNames
      case commandNames => simpa [commandNamesOf, htype] using hold.commandNames
      case mentions =>
        rw [sources_append]
        refine rel_append (hold.mentions.imp fun s m h => h.append item.text) ?_
        have hsources : sources [item] = item.mentions.map fun m => (item.text, m) := by
          simp [sources, InputItem.sources, htype]
        have hitem : item.sources = item.mentions.map fun m => (item.text, m) := if_pos htype
        rw [hitem] at hnew
        rw [hsources, shiftMentions, forall₂_map_left_iff, forall₂_map_right_iff,
          forall₂_same]
        intro m hm
        exact (Refers.refl (hnew _ (mem_map.mpr ⟨m, hm, rfl⟩))).shift queued.text
    · next htext =>
      have htextOf : textOf (input ++ [item]) = textOf input := by rw [textOf_append, if_neg htext]
      split
      · next htype =>
        refine ⟨htextOf ▸ hold.text, ?_, ?_, ?_, hother htext ▸ hold.mentions⟩
        · simp [imagesOf, htype, hold.images]
        · simpa [skillNamesOf, htype] using hold.skillNames
        · simpa [commandNamesOf, htype] using hold.commandNames
      · next himage =>
        split
        · next htype =>
          refine ⟨htextOf ▸ hold.text, ?_, ?_, ?_, hother htext ▸ hold.mentions⟩
          · simpa [imagesOf, htype] using hold.images
          · simp [skillNamesOf, htype, hold.skillNames]
          · simpa [commandNamesOf, htype] using hold.commandNames
        · next hskill =>
          split
          · next htype =>
            refine ⟨htextOf ▸ hold.text, ?_, ?_, ?_, hother htext ▸ hold.mentions⟩
            · simpa [imagesOf, htype] using hold.images
            · simpa [skillNamesOf, htype] using hold.skillNames
            · simp [commandNamesOf, htype, hold.commandNames]
          · next hcommand =>
            refine ⟨htextOf ▸ hold.text, ?_, ?_, ?_, hother htext ▸ hold.mentions⟩
            · simpa [imagesOf, himage] using hold.images
            · simpa [skillNamesOf, hskill] using hold.skillNames
            · simpa [commandNamesOf, hcommand] using hold.commandNames

/-! ## Drains -/

/-- The inputs of a drain: those of the entries, and the extra one. -/
def drainedInputs (entries : List QueueEntry) (extra : Input) : List Input :=
  entries.map QueueEntry.input ++ [extra]

/-- The inputs whose text is kept. -/
def kept (inputs : List Input) : List Input := inputs.filter fun input => hasText (textOf input)

/-- The text of a drain. -/
def joined (inputs : List Input) : String := "\n\n".intercalate ((kept inputs).map textOf)

theorem hasText_append (a b : String) : hasText (a ++ b) = (hasText a || hasText b) := by
  unfold hasText
  rw [String.toList_append, any_append]

theorem hasText_intercalate (texts : List String) :
    hasText ("\n\n".intercalate texts) = texts.any hasText := by
  induction texts with
  | nil => rfl
  | cons text texts ih =>
    by_cases hnil : texts = []
    · subst hnil
      rw [String.intercalate_singleton, any_cons, any_nil, Bool.or_false]
    · have hseparator : hasText "\n\n" = false := by decide
      rw [String.intercalate_cons_of_ne_nil hnil, hasText_append, hasText_append, hseparator, ih,
        Bool.or_false, any_cons]

theorem hasText_joined (inputs : List Input) :
    hasText (joined inputs) = true ↔ kept inputs ≠ [] := by
  unfold joined
  rw [hasText_intercalate, any_map, any_eq_true]
  constructor
  · rintro ⟨input, hinput, _⟩
    exact ne_nil_of_mem hinput
  · intro hne
    obtain ⟨input, hinput⟩ := exists_mem_of_ne_nil _ hne
    exact ⟨input, hinput, (mem_filter.mp hinput).2⟩

/-- What has been gathered of some inputs, whose mentions come from `origins`. -/
structure Gathers (inputs : List Input) (origins : List Source) (combined : CombinedInput) : Prop where
  texts : combined.texts = (kept inputs).map textOf
  offset : combined.textOffset = utf16Length (joined inputs)
  images : combined.images = inputs.flatMap imagesOf
  skillNames : combined.skillNames = inputs.flatMap skillNamesOf
  commandNames : combined.commandNames = inputs.flatMap commandNamesOf
  mentions : List.Forall₂ (fun s m => Refers s (joined inputs, m)) origins combined.mentions

theorem Gathers.append {inputs : List Input} {origins : List Source} {combined : CombinedInput}
    (h : Gathers inputs origins combined) {input : Input} {own : List Source} {queued : QueuedInput}
    (hq : Queues input queued)
    (hown : List.Forall₂ (fun s m => Refers s (queued.text, m)) own queued.mentions) :
    Gathers (inputs ++ [input]) (origins ++ if hasText (textOf input) then own else [])
      (appendInput combined queued) := by
  have hkept : kept (inputs ++ [input]) =
      kept inputs ++ if hasText (textOf input) then [input] else [] := by
    unfold kept
    rw [filter_append]
    congr 1
    cases htext : hasText (textOf input) <;> simp [htext]
  unfold appendInput
  rw [hq.text]
  cases htext : hasText (textOf input) with
  | false =>
    rw [htext] at hkept
    have hsame : kept (inputs ++ [input]) = kept inputs := by simpa using hkept
    have hjoined : joined (inputs ++ [input]) = joined inputs := by
      unfold joined
      rw [hsame]
    refine ⟨hsame ▸ h.texts, hjoined ▸ h.offset, ?_, ?_, ?_, ?_⟩
    · simp [h.images, hq.images]
    · simp [h.skillNames, hq.skillNames]
    · simp [h.commandNames, hq.commandNames]
    · rw [hjoined]
      simpa using h.mentions
  | true =>
    rw [htext] at hkept
    -- the text before the new one, with the separator where there is one
    have hfront : ∃ front, joined (inputs ++ [input]) = joined inputs ++ front ++ textOf input ∧
        utf16Length (joined inputs ++ front) =
          if combined.texts ≠ [] then combined.textOffset + 2 else combined.textOffset := by
      by_cases hnil : kept inputs = []
      · refine ⟨"", ?_, ?_⟩
        · unfold joined
          rw [hkept, hnil]
          simp
        · rw [h.texts, hnil, h.offset]
          simp
      · refine ⟨"\n\n", ?_, ?_⟩
        · unfold joined
          rw [hkept, if_pos rfl, map_append, String.intercalate_append_of_ne_nil (by simpa using hnil)
            (by simp)]
          simp
        · rw [h.texts, if_pos (by simpa using hnil), h.offset, utf16Length_append]
          rfl
    obtain ⟨front, hjoined, hlength⟩ := hfront
    refine ⟨?_, ?_, ?_, ?_, ?_, ?_⟩
    · simp [h.texts, hkept]
    · simp only [if_true]
      rw [hjoined, utf16Length_append, hlength]
    · simp [h.images, hq.images]
    · simp [h.skillNames, hq.skillNames]
    · simp [h.commandNames, hq.commandNames]
    · simp only [if_true]
      rw [hjoined, ← hlength]
      refine rel_append ?_ ?_
      · exact h.mentions.imp fun s m hm => (hm.append front).append (textOf input)
      · unfold shiftMentions
        rw [forall₂_map_right_iff]
        rw [hq.text] at hown
        exact hown.imp fun s m hm => hm.shift (joined inputs ++ front)

theorem forall₂_trans {l l' : List Source} {text : String} {mentions : List InputMention}
    (h : List.Forall₂ Refers l l')
    (h' : List.Forall₂ (fun s m => Refers s (text, m)) l' mentions) :
    List.Forall₂ (fun s m => Refers s (text, m)) l mentions := by
  induction h generalizing mentions with
  | nil => exact h'
  | cons hst _ ih =>
    cases h' with
    | cons htm hrest => exact .cons (hst.trans htm) (ih hrest)

/-- Entries beside the sources that their mentions refer to. -/
abbrev Traced := Input × List Source

def Traced.Sound (p : Traced) : Prop := List.Forall₂ Refers p.2 (sources p.1)

theorem Traced.Sound.inside {p : Traced} (h : p.Sound) : ∀ s ∈ sources p.1, Inside s := by
  intro t ht
  obtain ⟨i, hi, rfl⟩ := getElem_of_mem ht
  exact (List.Forall₂.get h (h.length_eq ▸ hi) hi).inside

def keptSources (parts : List Traced) : List Source :=
  (parts.filter fun p => hasText (textOf p.1)).flatMap Prod.snd

theorem gathers (parts : List Traced) (entries : List QueueEntry)
    (hentries : entries.map QueueEntry.input = parts.map Prod.fst) (hsound : ∀ p ∈ parts, p.Sound) :
    Gathers (parts.map Prod.fst) (keptSources parts)
      (entries.foldl (fun combined entry =>
        appendInput combined (queuedInputFromClientMutation entry)) {}) := by
  induction parts using List.reverseRecOn generalizing entries with
  | nil =>
    obtain rfl := map_eq_nil_iff.mp hentries
    exact ⟨rfl, rfl, rfl, rfl, rfl, .nil⟩
  | append_singleton parts p ih =>
    rw [map_append] at hentries
    obtain ⟨front, last, rfl, hfront, hlast⟩ := map_eq_append_iff.mp hentries
    obtain ⟨entry, rfl, hentry⟩ := map_eq_singleton_iff.mp hlast
    have hp := hsound p (mem_append_right _ (mem_singleton.mpr rfl))
    have hq := queued_spec entry (hentry ▸ hp.inside)
    rw [hentry] at hq
    have hold := ih front hfront fun q hq => hsound q (mem_append_left _ hq)
    rw [foldl_append, map_append]
    have hsources : keptSources (parts ++ [p]) =
        keptSources parts ++ if hasText (textOf p.1) then p.2 else [] := by
      unfold keptSources
      rw [filter_append, flatMap_append]
      congr 1
      cases htext : hasText (textOf p.1) <;> simp [htext]
    rw [hsources]
    exact hold.append hq (forall₂_trans hp hq.mentions)

theorem textOf_combined (text : String) (images : List ImageAttachment) (skillNames : List String)
    (mentions : List InputMention) (commandNames : List String) :
    sources (clientMutationInputWithMentions text images skillNames mentions commandNames) =
      (if text ≠ "" then mentions.map fun m => (text, m) else []) ∧
    textOf (clientMutationInputWithMentions text images skillNames mentions commandNames) = text := by
  have hquiet : ∀ (input : Input), (∀ item ∈ input, item.type ≠ "text") →
      sources input = [] ∧ ∀ text,
        input.foldl (fun text item => if item.type = "text" then text ++ item.text else text) text =
          text := by
    intro input hinput
    induction input with
    | nil => exact ⟨rfl, fun _ => rfl⟩
    | cons item input ih =>
      have hitem := hinput item mem_cons_self
      obtain ⟨hsources, hfold⟩ := ih fun i hi => hinput i (mem_cons_of_mem _ hi)
      refine ⟨?_, fun text => ?_⟩
      · show item.sources ++ sources input = []
        rw [hsources, InputItem.sources, if_neg hitem, append_nil]
      · rw [foldl_cons, if_neg hitem, hfold]
  have hrest : ∀ item ∈ images.map (fun image =>
      ({ type := "image", mediaType := image.mediaType, data := image.data, name := image.name } :
        InputItem)) ++ skillNames.map (fun name => { type := "skill", name := name }) ++
        commandNames.map (fun name => { type := "command", name := name }), item.type ≠ "text" := by
    intro item hitem
    rcases mem_append.mp hitem with hitem | hitem
    · rcases mem_append.mp hitem with hitem | hitem
      · obtain ⟨image, _, rfl⟩ := mem_map.mp hitem
        simp
      · obtain ⟨name, _, rfl⟩ := mem_map.mp hitem
        simp
    · obtain ⟨name, _, rfl⟩ := mem_map.mp hitem
      simp
  obtain ⟨hsources, hfold⟩ := hquiet _ hrest
  unfold clientMutationInputWithMentions
  rw [append_assoc, append_assoc, ← append_assoc (List.map _ images)]
  constructor
  · rw [sources_append, hsources, append_nil]
    split <;> simp [sources, InputItem.sources]
  · unfold textOf
    rw [foldl_append, hfold]
    split
    · simp
    · next hempty => simpa using (not_not.mp hempty).symm

theorem appendInput_empty (combined : CombinedInput) : appendInput combined {} = combined := by
  have htext : hasText "" = false := by decide
  unfold appendInput
  rw [if_neg (by simp [htext])]
  simp

/-- A drain of inputs whose mentions come from elsewhere: its own come from there too. -/
theorem drain_spec (parts : List Traced) (last : Traced) (entries : List QueueEntry)
    (hentries : entries.map QueueEntry.input = parts.map Prod.fst)
    (hsound : ∀ p ∈ parts ++ [last], p.Sound) :
    (∃ mentions, combineClientMutationInputs entries last.1 =
      clientMutationInputWithMentions (joined (drainedInputs entries last.1))
        ((drainedInputs entries last.1).flatMap imagesOf)
        ((drainedInputs entries last.1).flatMap skillNamesOf) mentions
        ((drainedInputs entries last.1).flatMap commandNamesOf)) ∧
      textOf (combineClientMutationInputs entries last.1) = joined (drainedInputs entries last.1) ∧
      List.Forall₂ Refers (keptSources (parts ++ [last]))
        (sources (combineClientMutationInputs entries last.1)) := by
  have hinputs : drainedInputs entries last.1 = (parts ++ [last]).map Prod.fst := by
    unfold drainedInputs
    rw [hentries, map_append]
    rfl
  have hgathers : Gathers ((parts ++ [last]).map Prod.fst) (keptSources (parts ++ [last]))
      ((entries ++ if last.1 ≠ [] then
        [({ id := "", clientMutationID := "", input := last.1 } : QueueEntry)] else []).foldl (fun combined entry =>
          appendInput combined (queuedInputFromClientMutation entry)) {}) := by
    by_cases hnil : last.1 = []
    · -- an empty extra input is not appended, which is as if it had been
      rw [if_neg (not_not.mpr hnil), append_nil]
      have hextra := gathers (parts ++ [last])
        (entries ++ [{ id := "", clientMutationID := "", input := last.1 }])
        (by rw [map_append, map_append, hentries]; rfl) hsound
      rw [foldl_append, hnil] at hextra
      have hlast := appendInput_empty (entries.foldl (fun combined entry =>
        appendInput combined (queuedInputFromClientMutation entry)) {})
      exact hlast ▸ hextra
    · rw [if_pos hnil]
      exact gathers (parts ++ [last]) _ (by rw [map_append, map_append, hentries]; rfl) hsound
  unfold combineClientMutationInputs
  dsimp only
  rw [hinputs]
  generalize List.foldl _ _ _ = combined at hgathers ⊢
  have htext : "\n\n".intercalate combined.texts = joined ((parts ++ [last]).map Prod.fst) := by
    rw [hgathers.texts]
    rfl
  obtain ⟨hsources, hsame⟩ := textOf_combined (joined ((parts ++ [last]).map Prod.fst)) combined.images
    combined.skillNames combined.mentions combined.commandNames
  rw [htext]
  refine ⟨⟨combined.mentions, ?_⟩, hsame, ?_⟩
  · rw [hgathers.images, hgathers.skillNames, hgathers.commandNames]
  · rw [hsources]
    split
    · rw [forall₂_map_right_iff]
      exact hgathers.mentions
    · next hempty =>
      have hnone : keptSources (parts ++ [last]) = [] := by
        have hblank : kept ((parts ++ [last]).map Prod.fst) = [] := by
          by_contra hne
          have htrue := (hasText_joined _).mpr hne
          rw [not_not.mp hempty] at htrue
          revert htrue
          decide
        unfold kept at hblank
        rw [filter_map, map_eq_nil_iff] at hblank
        unfold keptSources
        rw [show (fun p : Traced => hasText (textOf p.1)) =
          (fun input => hasText (textOf input)) ∘ Prod.fst from rfl, hblank]
        rfl
      rw [hnone]
      exact .nil

theorem keptSources_self (inputs : List Input) :
    keptSources (inputs.map fun input => (input, sources input)) = (kept inputs).flatMap sources := by
  unfold keptSources kept
  rw [filter_map, flatMap_map]
  rfl

theorem sound_self {input : Input} (h : ∀ s ∈ sources input, Inside s) :
    Traced.Sound (input, sources input) :=
  forall₂_same.mpr fun s hs => Refers.refl (h s hs)

/-- The last conjunct is about a drain of what drains returned: the mentions are the ones of the
    entries that those drains kept. -/
theorem drained_mentions (entries : List QueueEntry) (extra : Input)
    (hinside : ∀ input ∈ drainedInputs entries extra, ∀ s ∈ sources input, Inside s) :
    (∃ mentions, combineClientMutationInputs entries extra =
      clientMutationInputWithMentions (joined (drainedInputs entries extra))
        ((drainedInputs entries extra).flatMap imagesOf)
        ((drainedInputs entries extra).flatMap skillNamesOf) mentions
        ((drainedInputs entries extra).flatMap commandNamesOf)) ∧
    List.Forall₂ Refers ((kept (drainedInputs entries extra)).flatMap sources)
      (sources (combineClientMutationInputs entries extra)) ∧
    ∀ (drains : List (List QueueEntry × Input)) (later : List QueueEntry),
      later.map QueueEntry.input = drains.map (fun d => combineClientMutationInputs d.1 d.2) →
      (∀ d ∈ drains, ∀ input ∈ drainedInputs d.1 d.2, ∀ s ∈ sources input, Inside s) →
      List.Forall₂ Refers
        (drains.flatMap (fun d => (kept (drainedInputs d.1 d.2)).flatMap sources) ++
          (kept [extra]).flatMap sources)
        (sources (combineClientMutationInputs later extra)) := by
  have hone : ∀ (entries : List QueueEntry) (extra : Input),
      (∀ input ∈ drainedInputs entries extra, ∀ s ∈ sources input, Inside s) →
      (∃ mentions, combineClientMutationInputs entries extra =
        clientMutationInputWithMentions (joined (drainedInputs entries extra))
          ((drainedInputs entries extra).flatMap imagesOf)
          ((drainedInputs entries extra).flatMap skillNamesOf) mentions
          ((drainedInputs entries extra).flatMap commandNamesOf)) ∧
      textOf (combineClientMutationInputs entries extra) = joined (drainedInputs entries extra) ∧
      List.Forall₂ Refers ((kept (drainedInputs entries extra)).flatMap sources)
        (sources (combineClientMutationInputs entries extra)) := by
    intro entries extra hinside
    have hspec := drain_spec (entries.map fun e => (e.input, sources e.input)) (extra, sources extra)
      entries (by simp) fun p hp => by
        rcases mem_append.mp hp with hp | hp
        · obtain ⟨e, he, rfl⟩ := mem_map.mp hp
          exact sound_self (hinside _ (mem_append_left _ (mem_map.mpr ⟨e, he, rfl⟩)))
        · rw [mem_singleton.mp hp]
          exact sound_self (hinside _ (mem_append_right _ (mem_singleton.mpr rfl)))
    have hkept : keptSources ((entries.map fun e => (e.input, sources e.input)) ++
        [(extra, sources extra)]) = (kept (drainedInputs entries extra)).flatMap sources := by
      rw [← keptSources_self]
      simp [drainedInputs, Function.comp_def]
    rw [hkept] at hspec
    exact hspec
  refine ⟨(hone entries extra hinside).1, (hone entries extra hinside).2.2,
    fun drains later hlater hdrains => ?_⟩
  have hextra : ∀ s ∈ sources extra, Inside s :=
    hinside extra (mem_append_right _ (mem_singleton.mpr rfl))
  have hspec := drain_spec
    (drains.map fun d => (combineClientMutationInputs d.1 d.2,
      (kept (drainedInputs d.1 d.2)).flatMap sources)) (extra, sources extra) later
    (by rw [hlater, map_map]; rfl) fun p hp => by
      rcases mem_append.mp hp with hp | hp
      · obtain ⟨d, hd, rfl⟩ := mem_map.mp hp
        exact (hone d.1 d.2 (hdrains d hd)).2.2
      · rw [mem_singleton.mp hp]
        exact sound_self hextra
  have hkept : ∀ drains : List (List QueueEntry × Input),
      (∀ d ∈ drains, textOf (combineClientMutationInputs d.1 d.2) = joined (drainedInputs d.1 d.2)) →
      keptSources (drains.map fun d => (combineClientMutationInputs d.1 d.2,
        (kept (drainedInputs d.1 d.2)).flatMap sources)) =
      drains.flatMap fun d => (kept (drainedInputs d.1 d.2)).flatMap sources := by
    intro drains htexts
    induction drains with
    | nil => rfl
    | cons d drains ih =>
      have hrest := ih fun d' hd' => htexts d' (mem_cons_of_mem _ hd')
      have htext := htexts d mem_cons_self
      unfold keptSources at hrest ⊢
      rw [map_cons, flatMap_cons, ← hrest]
      cases hd : hasText (joined (drainedInputs d.1 d.2)) with
      | true => rw [filter_cons_of_pos (by rw [htext, hd]), flatMap_cons]
      | false =>
        have hblank : kept (drainedInputs d.1 d.2) = [] := by
          by_contra hne
          rw [(hasText_joined _).mpr hne] at hd
          cases hd
        rw [filter_cons_of_neg (by rw [htext, hd]; exact Bool.false_ne_true), hblank]
        rfl
  have hlast : keptSources [(extra, sources extra)] = (kept [extra]).flatMap sources :=
    keptSources_self [extra]
  have hsplit : ∀ parts parts' : List Traced,
      keptSources (parts ++ parts') = keptSources parts ++ keptSources parts' := by
    intro parts parts'
    unfold keptSources
    rw [filter_append, flatMap_append]
  rw [hsplit, hlast, hkept drains fun d hd => (hone d.1 d.2 (hdrains d hd)).2.1] at hspec
  exact hspec.2.2

/-- Two entries; the first holds a character of two units. -/
theorem drained_mentions_emoji :
    let first : Input := [{ type := "text", text := "😀 /go", mentions := [⟨"command", "go", 3⟩] }]
    let second : Input := [{ type := "text", text := "then " },
      { type := "text", text := "/stop", mentions := [⟨"command", "stop", 0⟩] }]
    let entries : List QueueEntry :=
      [{ id := "a", clientMutationID := "a", input := first },
        { id := "b", clientMutationID := "b", input := second }]
    (sources (combineClientMutationInputs entries [])).map (fun s => s.2.offset) = [3, 13] ∧
      List.Forall₂ Refers ((kept (drainedInputs entries [])).flatMap sources)
        (sources (combineClientMutationInputs entries [])) := by
  intro first second entries
  exact ⟨by decide, (drained_mentions entries [] (by decide)).2.1⟩

end Evener.ClientMutation
