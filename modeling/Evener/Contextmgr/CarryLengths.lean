/-
  Lengths of what is rendered: trimming the middle of a text makes no run of backticks longer, so
  a block shrinks by at least as much as its text (`entrySize_middleTrim`).
-/
import Evener.Contextmgr.PartnerCarry
import Evener.Contextmgr.Sections

namespace Evener.Contextmgr

open Evener.Lib List

/-! ## Runs of backticks -/

theorem longestRun_mono (text : Bytes) {current current' longest longest' : Nat}
    (hcurrent : current ≤ current') (hlongest : longest ≤ longest') :
    longestRun text current longest ≤ longestRun text current' longest' := by
  induction text generalizing current current' longest longest' with
  | nil => exact hlongest
  | cons b rest ih =>
    rw [longestRun, longestRun]
    split
    · exact ih (by omega) (by omega)
    · exact ih (Nat.le_refl 0) hlongest

theorem longestRun_max (text : Bytes) (current a b : Nat) :
    longestRun text current (max a b) = max a (longestRun text current b) := by
  induction text generalizing current b with
  | nil => rfl
  | cons c rest ih =>
    rw [longestRun, longestRun]
    split
    · rw [Nat.max_assoc]
      exact ih _ _
    · exact ih _ _

variable {sep tail head text : Bytes}

/-- Behind a byte that is no backtick a run begins anew. -/
theorem longestRun_apart (hsep : sep ≠ []) (hplain : backtick ∉ sep) (rest : Bytes)
    (current longest : Nat) :
    longestRun (sep ++ rest) current longest = longestRun rest 0 longest := by
  induction sep generalizing current with
  | nil => exact absurd rfl hsep
  | cons b more ih =>
    rw [mem_cons, not_or] at hplain
    rw [cons_append, longestRun, if_neg (Ne.symm hplain.1)]
    by_cases hmore : more = []
    · rw [hmore, nil_append]
    · exact ih hmore hplain.2 0

theorem longestRun_part (a b c : Bytes) :
    longestRun b 0 0 ≤ longestRun (a ++ b ++ c) 0 0 := by
  obtain ⟨_, hbehind⟩ := longestRun_append (a ++ b) c 0 0
  obtain ⟨_, hfront⟩ := longestRun_append a b 0 0
  rw [hbehind, hfront]
  refine Nat.le_trans ?_ (le_longestRun c _ _)
  exact longestRun_mono b (Nat.zero_le _) (Nat.zero_le _)

theorem longestRun_length (text : Bytes) : longestRun text 0 0 ≤ text.length := by
  have hrun : ∀ (l : Bytes) (current longest : Nat),
      longestRun l current longest ≤ max longest (current + l.length) := by
    intro l
    induction l with
    | nil =>
      intro current longest
      exact Nat.le_max_left _ _
    | cons b rest ih =>
      intro current longest
      rw [longestRun, length_cons]
      have hopen := ih (current + 1) (max longest (current + 1))
      have hshut := ih 0 longest
      split
      · omega
      · omega
  have := hrun text 0 0
  omega

theorem longestRun_around (hsep : sep ≠ []) (hplain : backtick ∉ sep) (head tail : Bytes) :
    longestRun (head ++ sep ++ tail) 0 0 = max (longestRun head 0 0) (longestRun tail 0 0) := by
  obtain ⟨_, hrun⟩ := longestRun_append head (sep ++ tail) 0 0
  have hmax := longestRun_max tail 0 (longestRun head 0 0) 0
  rw [Nat.max_eq_left (Nat.zero_le _)] at hmax
  rw [append_assoc, hrun, longestRun_apart hsep hplain, hmax]

theorem longestRun_ends (hhead : head <+: text) (htail : tail <:+ text) (hsep : sep ≠ [])
    (hplain : backtick ∉ sep) : longestRun (head ++ sep ++ tail) 0 0 ≤ longestRun text 0 0 := by
  obtain ⟨behind, hbehind⟩ := hhead
  obtain ⟨front, hfront⟩ := htail
  have hleft := longestRun_part [] head behind
  have hright := longestRun_part front tail []
  rw [nil_append, hbehind] at hleft
  rw [append_nil, hfront] at hright
  rw [longestRun_around hsep hplain]
  omega

theorem fenceLength_mono {a b : Bytes} (h : longestRun a 0 0 ≤ longestRun b 0 0) :
    fenceLength a ≤ fenceLength b := by
  unfold fenceLength
  dsimp only
  split
  · split
    · omega
    · omega
  · split
    · omega
    · omega

theorem fenceLength_le (text : Bytes) : fenceLength text ≤ max 3 (longestRun text 0 0 + 1) := by
  unfold fenceLength
  dsimp only
  split
  · omega
  · omega

/-! ## The note -/

theorem length_decimal_mono {a b : Nat} (h : a ≤ b) : (decimal a).length ≤ (decimal b).length := by
  rw [length_decimal, length_decimal]
  have hpos : 0 < (Nat.toDigits 10 b).length := Nat.length_toDigits_pos
  refine (Nat.length_toDigits_le_iff (by decide) hpos).mpr ?_
  exact Nat.lt_of_le_of_lt h ((Nat.length_toDigits_le_iff (by decide) hpos).mp (Nat.le_refl _))

theorem length_decimal_le {n k : Nat} (hk : 0 < k) (h : n < 10 ^ k) : (decimal n).length ≤ k := by
  rw [length_decimal]
  exact (Nat.length_toDigits_le_iff (by decide) hk).mpr h

theorem length_decimal_add (n k : Nat) : (decimal (n + k)).length ≤ (decimal n).length + k := by
  have hpos : 0 < (Nat.toDigits 10 n).length := Nat.length_toDigits_pos
  have hlt : n < 10 ^ (decimal n).length := by
    rw [length_decimal]
    exact (Nat.length_toDigits_le_iff (by decide) hpos).mp (Nat.le_refl _)
  have hk : k < 10 ^ k := Nat.lt_pow_self (by decide)
  refine length_decimal_le (by rw [length_decimal]; omega) ?_
  have hmul := Nat.mul_le_mul (show n + 1 ≤ _ from hlt) (show k + 1 ≤ _ from hk)
  have hexpand : (n + 1) * (k + 1) = n * k + n + k + 1 := by rw [Nat.mul_add, Nat.add_mul]; omega
  rw [Nat.pow_add]
  omega

def gap : Bytes := [newline, newline]

/-- The note without the empty lines around it. -/
def noteLine (n : Nat) : Bytes :=
  utf8 "[... " ++ decimal n ++
    utf8 " characters of this message trimmed here; the full message is in this session's transcript ...]"

theorem note_eq (n : Nat) : trimmedMessageNote n = gap ++ noteLine n ++ gap := by
  have hlead : utf8 "\n\n[... " = gap ++ utf8 "[... " := by decide
  have hend : utf8
      " characters of this message trimmed here; the full message is in this session's transcript ...]\n\n" =
      utf8
        " characters of this message trimmed here; the full message is in this session's transcript ...]" ++
        gap := by decide
  unfold trimmedMessageNote noteLine
  rw [hlead, hend]
  simp only [append_assoc]

theorem length_note (n : Nat) : (trimmedMessageNote n).length = 104 + (decimal n).length := by
  have hlead : (utf8 "\n\n[... ").length = 7 := by decide
  have hend : (utf8
      " characters of this message trimmed here; the full message is in this session's transcript ...]\n\n").length =
      97 := by decide
  unfold trimmedMessageNote
  rw [length_append, length_append, hlead, hend]
  omega

theorem length_noteLine (n : Nat) : (noteLine n).length + 4 = (trimmedMessageNote n).length := by
  rw [note_eq]
  simp [gap]

theorem length_note_mono {a b : Nat} (h : a ≤ b) :
    (trimmedMessageNote a).length ≤ (trimmedMessageNote b).length := by
  have := length_decimal_mono h
  rw [length_note, length_note]
  omega

theorem backtick_not_mem_note (n : Nat) : backtick ∉ trimmedMessageNote n := by
  unfold trimmedMessageNote
  intro hmem
  rcases mem_append.mp hmem with hmem | hmem
  · rcases mem_append.mp hmem with hmem | hmem
    · exact absurd hmem (by decide)
    · exact not_mem_decimal (by decide) n hmem
  · exact absurd hmem (by decide)

theorem note_ne_nil (n : Nat) : trimmedMessageNote n ≠ [] := by
  rw [note_eq]
  simp [gap]

/-! ## Two ends and a note -/

theorem newline_alone : ∀ m ∈ whiteSpace, newline ∈ m → m.length = 1 := by decide

/-- A prefix of a trimmed text does not begin with white space, also in front of a newline. -/
theorem front_newline (h : Trimmed text) (hhead : head <+: text) (hne : head ≠ []) (rest : Bytes) :
    ∀ m ∈ whiteSpace, ¬ m <+: head ++ newline :: rest := by
  intro m hm hpre
  rcases prefix_or_prefix_of_prefix hpre (prefix_append head _) with hinside | hover
  · exact h.front m hm (hinside.trans hhead)
  · obtain ⟨more, rfl⟩ := hover
    cases more with
    | nil =>
      rw [append_nil] at hm
      exact h.front head hm hhead
    | cons b more =>
      have hrest := (prefix_append_right_inj head).mp hpre
      rw [cons_prefix_cons] at hrest
      have hone := newline_alone _ hm (mem_append_right _ (by rw [hrest.1]; exact mem_cons_self))
      have hpos := length_pos_iff.mpr hne
      rw [length_append, length_cons] at hone
      omega

theorem back_newline (h : Trimmed text) (htail : tail <:+ text) (hne : tail ≠ []) (front : Bytes) :
    ∀ m ∈ whiteSpace, ¬ m <:+ front ++ [newline] ++ tail := by
  intro m hm hsuf
  rcases suffix_or_suffix_of_suffix hsuf (suffix_append _ tail) with hinside | hover
  · exact h.back m hm (hinside.trans htail)
  · obtain ⟨more, rfl⟩ := hover
    rcases suffix_concat_iff.mp (suffix_append_self_iff.mp hsuf) with rfl | ⟨l, rfl, _⟩
    · rw [nil_append] at hm
      exact h.back tail hm htail
    · have hone := newline_alone _ hm (by simp)
      have hpos := length_pos_iff.mpr hne
      rw [length_append, length_append, length_singleton] at hone
      omega

/-- `trimmed` bytes in between, with the white space that the note begins or ends with left out at
    an empty end. -/
def shownTrimmed (head tail : Bytes) (trimmed : Nat) : Bytes :=
  (if head = [] then [] else head ++ gap) ++ noteLine trimmed ++
    (if tail = [] then [] else gap ++ tail)

theorem trimBytes_ends (h : Trimmed text) (hhead : head <+: text) (htail : tail <:+ text) (n : Nat) :
    trimBytes (head ++ trimmedMessageNote n ++ tail) = shownTrimmed head tail n := by
  have hgap : Blank gap := ⟨[[newline], [newline]], by decide, rfl⟩
  have hfirst : ∀ m ∈ whiteSpace, m.head? ≠ some 91 := by decide
  have hlast : ∀ m ∈ whiteSpace, m.getLast? ≠ some 93 := by decide
  have hline : ∃ l l', noteLine n = 91 :: l ∧ noteLine n = l' ++ [93] := by
    refine ⟨_, utf8 "[... " ++ decimal n ++
      utf8 " characters of this message trimmed here; the full message is in this session's transcript ...",
      rfl, ?_⟩
    unfold noteLine
    rw [append_assoc, show utf8
      " characters of this message trimmed here; the full message is in this session's transcript ...]" =
      utf8
      " characters of this message trimmed here; the full message is in this session's transcript ..." ++
      [93] by decide]
    simp only [append_assoc]
  obtain ⟨l, l', hl, hl'⟩ := hline
  have hshown : Trimmed (shownTrimmed head tail n) := by
    unfold shownTrimmed
    constructor
    · intro m hm
      split
      · rw [nil_append, hl]
        intro hpre
        obtain ⟨c, rest, rfl⟩ := exists_cons_of_ne_nil (whiteSpace_apart.nonempty m hm)
        exact hfirst _ hm (congrArg some (cons_prefix_cons.mp hpre).1)
      · next hne =>
        have hfront := front_newline h hhead hne
          (newline :: (noteLine n ++ if tail = [] then [] else gap ++ tail)) m hm
        simpa [gap] using hfront
    · intro m hm
      generalize (if head = [] then [] else head ++ gap) = front
      split
      · rw [append_nil, hl', ← append_assoc]
        intro hsuf
        rcases suffix_concat_iff.mp hsuf with rfl | ⟨t, rfl, _⟩
        · exact whiteSpace_apart.nonempty _ hm rfl
        · exact hlast _ hm (by simp)
      · next hne =>
        have hback := back_newline h htail hne (front ++ noteLine n ++ [newline]) m hm
        simpa [gap] using hback
  have hparts : head ++ trimmedMessageNote n ++ tail =
      (if head = [] then gap else []) ++ shownTrimmed head tail n ++
        (if tail = [] then gap else []) := by
    rw [note_eq]
    unfold shownTrimmed
    by_cases hhead : head = []
    · by_cases htail : tail = []
      · simp [hhead, htail]
      · simp [hhead, htail]
    · by_cases htail : tail = []
      · simp [hhead, htail]
      · simp [hhead, htail]
  have hblank : ∀ c : Prop, ∀ [Decidable c], Blank (if c then gap else []) := by
    intro c hc
    split
    · exact hgap
    · exact Blank.nil
  rw [hparts]
  exact trimBytes_unique (hblank _) hshown (hblank _)

/-! ## A trimmed text -/

theorem middleTrim_short {edge : Nat} (h : text.length ≤ 2 * edge) :
    middleTrim text edge = text := if_pos h

theorem middleTrim_ends {edge : Nat} (h : 2 * edge < text.length) :
    middleTrim text edge = cutText text edge ++
      trimmedMessageNote (text.length - (cutText text edge).length - (tailText text edge).length) ++
      tailText text edge := if_neg (Nat.not_le.mpr h)

theorem longestRun_middleTrim (text : Bytes) (edge : Nat) :
    longestRun (middleTrim text edge) 0 0 ≤ longestRun text 0 0 := by
  by_cases h : text.length ≤ 2 * edge
  · rw [middleTrim_short h]
  · rw [middleTrim_ends (Nat.not_le.mp h)]
    exact longestRun_ends (prefix_cutText text edge) (tailText_suffix text edge) (note_ne_nil _)
      (backtick_not_mem_note _)

theorem longestRun_trimBytes (text : Bytes) : longestRun (trimBytes text) 0 0 ≤ longestRun text 0 0 := by
  obtain ⟨w, w', _, _, htext, _⟩ := trimBytes_spec text
  have hpart := longestRun_part w (trimBytes text) w'
  rwa [← htext] at hpart

theorem length_trimBytes_le (text : Bytes) : (trimBytes text).length ≤ text.length := by
  obtain ⟨w, w', _, _, htext, _⟩ := trimBytes_spec text
  have hlength := congrArg List.length htext
  rw [length_append, length_append] at hlength
  omega

theorem length_shownTrimmed (head tail : Bytes) (n : Nat) :
    (shownTrimmed head tail n).length + (if head = [] then 2 else 0) + (if tail = [] then 2 else 0) =
      head.length + (trimmedMessageNote n).length + tail.length := by
  have hline := length_noteLine n
  have hgap : gap.length = 2 := rfl
  unfold shownTrimmed
  rw [length_append, length_append]
  by_cases hhead : head = []
  · by_cases htail : tail = []
    · simp [hhead, htail]
      omega
    · simp [hhead, htail, hgap]
      omega
  · by_cases htail : tail = []
    · simp [hhead, htail, hgap]
      omega
    · simp [hhead, htail, hgap]
      omega

/-- A note is never blank. -/
theorem trimBytes_note_ne_nil (n : Nat) :
    trimBytes (head ++ trimmedMessageNote n ++ tail) ≠ [] := by
  intro hnil
  obtain ⟨w, w', ⟨taken, htaken, hw⟩, ⟨taken', htaken', hw'⟩, htext, _⟩ :=
    trimBytes_spec (head ++ trimmedMessageNote n ++ tail)
  have hmem : (91 : UInt8) ∈ w ++ trimBytes (head ++ trimmedMessageNote n ++ tail) ++ w' := by
    rw [← htext]
    unfold trimmedMessageNote
    exact mem_append_left _ (mem_append_right _ (mem_append_left _
      (mem_append_left _ (by decide))))
  have hnone : ∀ m ∈ whiteSpace, (91 : UInt8) ∉ m := by decide
  rw [hnil, append_nil, hw, hw'] at hmem
  rcases mem_append.mp hmem with hmem | hmem
  · obtain ⟨m, hm, hin⟩ := mem_flatten.mp hmem
    exact hnone m (htaken m hm) hin
  · obtain ⟨m, hm, hin⟩ := mem_flatten.mp hmem
    exact hnone m (htaken' m hm) hin

/-! ## Blocks -/

/-- The size of a fenced text that ends with no newline. -/
def textSize (text : Bytes) : Nat := 2 * fenceLength text + text.length + 8

def headSize (role : Bytes) : Nat := if role = utf8 "agent" then 11 else 10

/-- What an entry adds to a rendered conversation, once it is cleaned. -/
def entrySize (entry : CheckpointConversationEntry) : Nat :=
  match cleanEntry entry with
  | some cleaned => headSize cleaned.role + textSize cleaned.text
  | none => 0

theorem getLast_trimmed (h : Trimmed text) : text.getLast? ≠ some newline := by
  intro hlast
  exact h.back [newline] (by decide) (singleton_suffix_iff_getLast?_eq_some.mpr hlast)

theorem length_writeMarkdownFence (h : text.getLast? ≠ some newline) :
    (writeMarkdownFence text).length = textSize text := by
  have hinfo : (utf8 "text\n").length = 5 := by decide
  have hend : (utf8 "\n\n").length = 2 := by decide
  unfold writeMarkdownFence textSize markdownFence
  rw [if_neg h]
  simp only [length_append, length_replicate, hinfo, hend, length_singleton]
  omega

theorem textSize_mono {a b : Bytes} (hrun : longestRun a 0 0 ≤ longestRun b 0 0) :
    textSize a + b.length ≤ textSize b + a.length := by
  have := fenceLength_mono hrun
  unfold textSize
  omega

theorem length_render (entries : List CheckpointConversationEntry) :
    (renderCheckpointConversation entries).length =
      if cleanCheckpointConversation entries = [] then 0 else 17 + (entries.map entrySize).sum := by
  have hblocks : ((cleanCheckpointConversation entries).flatMap fun entry =>
      (if entry.role = utf8 "agent" then utf8 "### Agent\n\n" else utf8 "### User\n\n") ++
        writeMarkdownFence entry.text).length = (entries.map entrySize).sum := by
    unfold cleanCheckpointConversation
    induction entries with
    | nil => rfl
    | cons entry entries ih =>
      rw [map_cons, sum_cons]
      cases hclean : cleanEntry entry with
      | none =>
        rw [filterMap_cons_none hclean, ih]
        simp [entrySize, hclean]
      | some cleaned =>
        have htrimmed : Trimmed cleaned.text := by
          rw [← (cleanEntry_clean hclean).trimmed]
          exact trimBytes_trimmed _
        have hhead : (if cleaned.role = utf8 "agent" then utf8 "### Agent\n\n"
            else utf8 "### User\n\n").length = headSize cleaned.role := by
          unfold headSize
          split
          · decide
          · decide
        rw [filterMap_cons_some hclean, flatMap_cons, length_append, ih,
          length_append, hhead, length_writeMarkdownFence (getLast_trimmed htrimmed)]
        simp [entrySize, hclean]
  have hheading : (checkpointConversationHeading ++ utf8 "\n\n").length = 17 := by decide
  unfold renderCheckpointConversation
  dsimp only
  split
  · rfl
  · rw [length_append, hheading, hblocks]

/-- An entry that is rendered. -/
def Shown (entry : CheckpointConversationEntry) : Prop := cleanEntry entry ≠ none

theorem clean_ne_nil {entries : List CheckpointConversationEntry} {entry : CheckpointConversationEntry}
    (h : entry ∈ entries) (hshown : Shown entry) : cleanCheckpointConversation entries ≠ [] := by
  obtain ⟨cleaned, hclean⟩ := Option.ne_none_iff_exists'.mp hshown
  exact ne_nil_of_mem (mem_filterMap.mpr ⟨entry, h, hclean⟩)

theorem blockLen_eq {entry : CheckpointConversationEntry} (h : Shown entry) :
    blockLen entry = entrySize entry := by
  have hheading : (checkpointConversationHeading ++ utf8 "\n\n").length = 17 := by decide
  unfold blockLen
  rw [length_render, if_neg (clean_ne_nil mem_cons_self h), hheading, map_singleton,
    sum_singleton]
  omega

theorem length_render_shown {entries : List CheckpointConversationEntry} (hne : entries ≠ [])
    (h : ∀ entry ∈ entries, Shown entry) :
    (renderCheckpointConversation entries).length = 17 + (entries.map entrySize).sum := by
  obtain ⟨entry, rest, rfl⟩ := exists_cons_of_ne_nil hne
  rw [length_render, if_neg (clean_ne_nil mem_cons_self (h entry mem_cons_self))]

/-! ## A trimmed message -/

theorem cleanEntry_user (h : trimBytes text ≠ []) :
    cleanEntry ⟨utf8 "user", text⟩ = some ⟨utf8 "user", trimBytes text⟩ := by
  have huser : lowerBytes (trimBytes (utf8 "user")) = utf8 "user" := by decide
  unfold cleanEntry
  rw [if_neg h, huser, if_pos rfl]

theorem entrySize_user (h : trimBytes text ≠ []) :
    entrySize ⟨utf8 "user", text⟩ = 10 + textSize (trimBytes text) := by
  unfold entrySize
  rw [cleanEntry_user h]
  rfl

theorem trimBytes_middleTrim_ne_nil (h : trimBytes text ≠ []) (edge : Nat) :
    trimBytes (middleTrim text edge) ≠ [] := by
  by_cases hshort : text.length ≤ 2 * edge
  · rwa [middleTrim_short hshort]
  · rw [middleTrim_ends (Nat.not_le.mp hshort)]
    exact trimBytes_note_ne_nil _

/-- A block shrinks by at least as much as its text. -/
theorem entrySize_middleTrim (h : Trimmed text) (hne : text ≠ []) (edge : Nat) :
    entrySize ⟨utf8 "user", middleTrim text edge⟩ + text.length ≤
      entrySize ⟨utf8 "user", text⟩ + (middleTrim text edge).length := by
  have hself := trimBytes_of_trimmed h
  have hsome : trimBytes text ≠ [] := by rwa [hself]
  rw [entrySize_user (trimBytes_middleTrim_ne_nil hsome edge), entrySize_user hsome, hself]
  have hrun := Nat.le_trans (longestRun_trimBytes (middleTrim text edge))
    (longestRun_middleTrim text edge)
  have hsize := textSize_mono hrun
  have hlength := length_trimBytes_le (middleTrim text edge)
  omega

/-- How long a trimmed text is at most. -/
theorem length_middleTrim_le {text : Bytes} {edge : Nat} (h : 2 * edge < text.length) :
    (middleTrim text edge).length ≤ 2 * edge + (trimmedMessageNote text.length).length := by
  have hhead := length_cutText_le text edge
  have htail := length_tailText_le text edge
  have hnote := length_note_mono
    (show text.length - (cutText text edge).length - (tailText text edge).length ≤ text.length by omega)
  rw [middleTrim_ends h, length_append, length_append]
  omega

/-- A message that is trimmed to more than its edges loses all that is over the budget. -/
theorem middleTrim_over {budget rendered : Int} {text : Bytes} (hover : budget < rendered)
    (hkeep : 2 * (partnerMessageEdgeChars : Int) < keepOf budget rendered text) :
    ((middleTrim text (keepOf budget rendered text / 2).toNat).length : Int) + (rendered - budget) ≤
      text.length := by
  unfold keepOf at hkeep ⊢
  have hle := @length_middleTrim_le text ((text.length - (rendered - budget) -
    (trimmedMessageNote text.length).length : Int) / 2).toNat
  rw [Int.max_eq_right (by omega)]
  omega

end Evener.Contextmgr
