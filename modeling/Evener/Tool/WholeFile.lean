/-
  A whole-file edit script, written as a patch and applied.

  The patch ends at the first kept line that reads like the end of a patch: what the script does
  from there on is lost.
-/
import Evener.Tool.ApplyPatch

namespace Evener.Tool

open Evener.Lib List

/-! ## Scripts -/

inductive Edit where
  | keep (line : String)
  | delete (line : String)
  | insert (line : String)
deriving DecidableEq

def Edit.old : Edit → Option String
  | .keep line => some line
  | .delete line => some line
  | .insert _ => none

def Edit.new : Edit → Option String
  | .keep line => some line
  | .delete _ => none
  | .insert line => some line

def Edit.sign : Edit → Char
  | .keep _ => ' '
  | .delete _ => '-'
  | .insert _ => '+'

def Edit.body : Edit → String
  | .keep line => line
  | .delete line => line
  | .insert line => line

/-- The patch line of a step. -/
def Edit.line (e : Edit) : String := String.ofList (e.sign :: e.body.toList)

def scriptPatch (path : String) (script : List Edit) : String :=
  joinText ("*** Begin Patch" :: ("*** Update File: " ++ path) :: "@@" ::
    (script.map Edit.line ++ ["*** End Patch"]))

/-- What the script makes of a text: its lines, with the text's final newline. -/
def edited (text : String) (script : List Edit) : String :=
  if endsWith text "\n" then joinText (script.filterMap Edit.new) ++ "\n"
  else joinText (script.filterMap Edit.new)

/-- The step's patch line reads like the end of the patch. -/
def Edit.endsPatch : Edit → Bool
  | .keep line => trimSpace line = "*** End Patch"
  | _ => false

def readSteps (script : List Edit) : List Edit := script.takeWhile fun e => !e.endsPatch

def lostSteps (script : List Edit) : List Edit := script.dropWhile fun e => !e.endsPatch

/-- The lines of a text, its final newline aside. -/
def textLines (text : String) : List String := splitText (trimEnding text "\n")

/-- Nothing in the text breaks a line. -/
def Unbroken (s : String) : Prop := '\r' ∉ s.toList ∧ '\n' ∉ s.toList

instance (s : String) : Decidable (Unbroken s) := inferInstanceAs (Decidable (_ ∧ _))

theorem read_append_lost (script : List Edit) : readSteps script ++ lostSteps script = script :=
  takeWhile_append_dropWhile

variable {e : Edit} {lines : List String} {l : List Char} {s : String} {c : Char}

theorem mem_lost {script : List Edit} (he : e ∈ lostSteps script) : e ∈ script :=
  dropWhile_subset _ he

/-- What is lost begins with a kept line. -/
theorem lost_begins {script lost : List Edit} (h : lostSteps script = e :: lost) :
    e.endsPatch = true := by
  have hne : script.dropWhile (fun e => !e.endsPatch) ≠ [] := by
    show lostSteps script ≠ []
    rw [h]
    simp
  have hnot := head_dropWhile_not (fun e : Edit => !e.endsPatch) hne
  have hhead : (script.dropWhile fun e => !e.endsPatch).head hne = e :=
    head_of_head?_eq_some (by
      show (lostSteps script).head? = some e
      rw [h]
      rfl)
  rw [hhead] at hnot
  simpa using hnot

/-! ## Texts -/

theorem splitText_joinText (hlines : ∀ line ∈ lines, '\n' ∉ line.toList) (hne : lines ≠ []) :
    splitText (joinText lines) = lines := by
  unfold splitText joinText
  have hnewline : "\n".toList = ['\n'] := by decide
  rw [String.toList_intercalate, hnewline, splitOn_intercalate _ ?_ (by simpa using hne)]
  · rw [map_map]
    simp
  · intro l hl
    obtain ⟨line, hline, rfl⟩ := mem_map.mp hl
    exact hlines line hline

theorem mem_splitOn {line : List Char} (h : line ∈ l.splitOn '\n') :
    '\n' ∉ line ∧ ∀ c ∈ line, c ∈ l := by
  induction l generalizing line with
  | nil =>
    have hline : line = [] := by simpa using h
    subst hline
    simp
  | cons c l ih =>
    have hrest : ∀ line' ∈ l.splitOn '\n', '\n' ∉ line' ∧ ∀ d ∈ line', d ∈ c :: l :=
      fun line' hline' => ⟨(ih hline').1, fun d hd => mem_cons_of_mem _ ((ih hline').2 d hd)⟩
    rw [splitOn_cons_eq_if_modifyHead] at h
    split at h
    · rcases mem_cons.mp h with rfl | h
      · simp
      · exact hrest line h
    · next hc =>
      obtain ⟨first, lines, hsplit⟩ := exists_cons_of_ne_nil (List.splitOn_ne_nil '\n' l)
      rw [hsplit] at h hrest
      rcases mem_cons.mp h with rfl | h
      · have hfirst := hrest first mem_cons_self
        refine ⟨fun hmem => ?_, fun d hd => ?_⟩
        · rcases mem_cons.mp hmem with hsame | hmem
          · exact hc (by simpa using hsame.symm)
          · exact hfirst.1 hmem
        · rcases mem_cons.mp hd with rfl | hd
          · exact mem_cons_self
          · exact hfirst.2 d hd
      · exact hrest line (mem_cons_of_mem _ h)

theorem mem_splitText {line : String} (h : line ∈ splitText s) :
    '\n' ∉ line.toList ∧ ∀ c ∈ line.toList, c ∈ s.toList := by
  obtain ⟨l, hl, rfl⟩ := mem_map.mp h
  rw [String.toList_ofList]
  exact mem_splitOn hl

theorem joinText_injective {lines' : List String} (hlines : ∀ line ∈ lines, '\n' ∉ line.toList)
    (hlines' : ∀ line ∈ lines', '\n' ∉ line.toList) (hne : lines ≠ []) (hne' : lines' ≠ [])
    (h : joinText lines = joinText lines') : lines = lines' := by
  rw [← splitText_joinText hlines hne, h, splitText_joinText hlines' hne']

theorem mem_trimEnding {ending : String} (h : c ∈ (trimEnding s ending).toList) : c ∈ s.toList := by
  unfold trimEnding at h
  split at h
  · rw [String.toList_ofList] at h
    exact mem_of_mem_take h
  · exact h

theorem replaceCRLF_of_not_mem (h : '\r' ∉ l) : replaceCRLF l = l := by
  induction l with
  | nil => rfl
  | cons c l ih =>
    rw [mem_cons, not_or] at h
    rw [replaceCRLF, ih h.2]
    rintro l' rfl
    exact absurd rfl h.1

theorem normalizeNewlines_eq (h : '\r' ∉ s.toList) : normalizeNewlines s = s := by
  unfold normalizeNewlines
  rw [replaceCRLF_of_not_mem h, String.ofList_toList]

theorem mem_joinText (h : c ∈ (joinText lines).toList) :
    c = '\n' ∨ ∃ line ∈ lines, c ∈ line.toList := by
  unfold joinText at h
  induction lines with
  | nil => simp at h
  | cons line lines ih =>
    by_cases hnil : lines = []
    · subst hnil
      rw [String.intercalate_singleton] at h
      exact Or.inr ⟨line, mem_cons_self, h⟩
    · rw [String.intercalate_cons_of_ne_nil hnil, String.toList_append, String.toList_append,
        mem_append, mem_append] at h
      rcases h with (h | h) | h
      · exact Or.inr ⟨line, mem_cons_self, h⟩
      · exact Or.inl (by simpa using h)
      · rcases ih h with hnew | ⟨line', hline', hc⟩
        · exact Or.inl hnew
        · exact Or.inr ⟨line', mem_cons_of_mem _ hline', hc⟩

theorem trimWhite_cons (h : isWhite c = false) : trimWhite (c :: l) <+: c :: l := by
  unfold trimWhite
  rw [dropWhile_cons_of_neg (by simp [h])]
  have hsuffix := dropWhile_suffix (l := (c :: l).reverse) isWhite
  simpa using reverse_prefix.mpr hsuffix

theorem trimSpace_ne {t : String} (hs : s.toList = c :: l) (hwhite : isWhite c = false)
    (hother : ¬ t.toList <+: c :: l) : trimSpace s ≠ t := by
  rintro rfl
  unfold trimSpace at hother
  rw [String.toList_ofList, hs] at hother
  exact hother (trimWhite_cons hwhite)

/-! ## Parsing the patch -/

theorem line_toList (e : Edit) : e.line.toList = e.sign :: e.body.toList := String.toList_ofList

theorem startsWith_line {start : String} (hstart : start.toList = c :: l) (hc : c ≠ e.sign) :
    startsWith e.line start = false := by
  unfold startsWith
  rw [hstart, line_toList, isPrefixOf_cons_cons]
  simp [hc]

theorem sign_cases (e : Edit) : e.sign = ' ' ∨ e.sign = '-' ∨ e.sign = '+' := by
  cases e
  · exact Or.inl rfl
  · exact Or.inr (Or.inl rfl)
  · exact Or.inr (Or.inr rfl)

/-- Only a kept line can be taken for the end of the patch. -/
theorem trimSpace_line (e : Edit) : trimSpace e.line = "*** End Patch" ↔ e.endsPatch = true := by
  cases e with
  | keep line =>
    have hsame : trimSpace (Edit.keep line).line = trimSpace line := by
      unfold trimSpace
      rw [line_toList]
      unfold trimWhite
      rw [dropWhile_cons_of_pos (by rfl)]
      rfl
    rw [hsame]
    simp [Edit.endsPatch]
  | delete line =>
    have hne : trimSpace (Edit.delete line).line ≠ "*** End Patch" :=
      trimSpace_ne (line_toList _) (by rfl) (by simp [Edit.sign])
    simp [hne, Edit.endsPatch]
  | insert line =>
    have hne : trimSpace (Edit.insert line).line ≠ "*** End Patch" :=
      trimSpace_ne (line_toList _) (by rfl) (by simp [Edit.sign])
    simp [hne, Edit.endsPatch]

theorem takeHunks_script (script : List Edit) {cur : List String} (hcur : cur ≠ []) :
    takeHunks cur (script.map Edit.line ++ ["*** End Patch"]) =
      ([cur ++ (readSteps script).map Edit.line],
        (lostSteps script).map Edit.line ++ ["*** End Patch"]) := by
  induction script generalizing cur with
  | nil =>
    show takeHunks cur ["*** End Patch"] = ([cur ++ []], ["*** End Patch"])
    rw [takeHunks, if_pos (Or.inl (by decide)), endHunks, if_neg hcur, append_nil]
  | cons e script ih =>
    have hstar : startsWith e.line "*** " = false :=
      startsWith_line (c := '*') (l := "** ".toList) (by decide) (by
        rcases sign_cases e with h | h | h
        all_goals
          rw [h]
          decide)
    have hat : startsWith e.line "@@" = false :=
      startsWith_line (c := '@') (l := ['@']) (by decide) (by
        rcases sign_cases e with h | h | h
        all_goals
          rw [h]
          decide)
    rw [map_cons, cons_append, takeHunks, hstar, hat]
    unfold readSteps lostSteps
    cases hend : e.endsPatch with
    | true =>
      rw [if_pos (Or.inr ((trimSpace_line e).mpr hend)), endHunks, if_neg hcur]
      simp [hend]
    | false =>
      have hnot : ¬ trimSpace e.line = "*** End Patch" := fun h => by
        rw [(trimSpace_line e).mp h] at hend
        cases hend
      rw [if_neg (by simp [hnot]), if_neg (by simp), ih (by simp)]
      simp [hend, readSteps, lostSteps]

theorem parse_script {path : String} (hpath : trimSpace path = path) (script : List Edit) :
    parseV4APatchLines ("*** Begin Patch" :: ("*** Update File: " ++ path) :: "@@" ::
      (script.map Edit.line ++ ["*** End Patch"])) =
      .ok [.updateFile path "" ["@@" :: (readSteps script).map Edit.line]] := by
  have hheader : ("*** Update File: " ++ path).toList =
      '*' :: ("** Update File: ".toList ++ path.toList) := by
    rw [String.toList_append]
    rfl
  have htrimmed : ∀ {t : String}, ¬ t.toList <+: '*' :: ("** Update File: ".toList ++ path.toList) →
      trimSpace ("*** Update File: " ++ path) ≠ t := fun hother =>
    trimSpace_ne hheader (by decide) hother
  have hstarts : ∀ {t : String}, (t.toList).isPrefixOf
      ('*' :: ("** Update File: ".toList ++ path.toList)) = false →
      startsWith ("*** Update File: " ++ path) t = false := by
    intro t ht
    unfold startsWith
    rw [hheader]
    exact ht
  have hempty : trimSpace ("*** Update File: " ++ path) ≠ "" := by
    intro hblank
    obtain ⟨l, hl⟩ := @head_trimWhite '*' ("** Update File: ".toList ++ path.toList) (by decide)
    have hnil := congrArg String.toList hblank
    unfold trimSpace at hnil
    rw [String.toList_ofList, hheader, hl] at hnil
    cases hnil
  have hadd : startsWith ("*** Update File: " ++ path) "*** Add File: " = false := hstarts (by rfl)
  have hdelete : startsWith ("*** Update File: " ++ path) "*** Delete File: " = false :=
    hstarts (by rfl)
  have hmove : startsWith "@@" "*** Move to: " = false := by decide
  have hhunks : takeHunks [] ("@@" :: (script.map Edit.line ++ ["*** End Patch"])) =
      ([["@@"] ++ (readSteps script).map Edit.line],
        (lostSteps script).map Edit.line ++ ["*** End Patch"]) := by
    rw [takeHunks, if_neg (by decide), if_neg (by simp)]
    exact takeHunks_script script (by simp)
  -- the line behind the hunk is an end of the patch, the script's or a kept line
  have hend : ∀ turns, parseOps (turns + 1) ((lostSteps script).map Edit.line ++ ["*** End Patch"]) =
      .ok [] := by
    intro turns
    cases hlost : lostSteps script with
    | nil =>
      show parseOps (turns + 1) ["*** End Patch"] = .ok []
      rw [parseOps, if_pos (by decide)]
    | cons e lost =>
      rw [map_cons, cons_append, parseOps.eq_def]
      dsimp only
      rw [if_pos ((trimSpace_line e).mpr (lost_begins hlost))]
  unfold parseV4APatchLines
  dsimp only
  rw [if_neg (by decide), parseOps, if_neg (htrimmed (by simp)), if_neg hempty,
    if_neg (htrimmed (by simp)), hadd, hdelete, startsWith_append, trimStart_append, hpath, hmove]
  simp only [Bool.false_eq_true, if_false, if_true, hhunks, length_cons]
  rw [hend]
  rfl

/-! ## Applying it -/

theorem entries_script (script : List Edit) :
    replacementEntriesFromHunk ("@@" :: script.map Edit.line) =
      script.map fun e => ⟨e.sign, e.body⟩ := by
  have hheader : startsWith "@@" "@@" = true := by decide
  unfold replacementEntriesFromHunk
  rw [filterMap_cons, hheader, if_pos rfl, filterMap_map, ← filterMap_eq_map]
  apply filterMap_congr
  intro e _
  have hat : startsWith e.line "@@" = false :=
    startsWith_line (c := '@') (l := ['@']) (by decide) (by
      rcases sign_cases e with h | h | h
      all_goals
        rw [h]
        decide)
  have hsign : e.sign ∈ [' ', '-', '+'] := by simpa using sign_cases e
  rw [Function.comp_apply, hat, line_toList, if_neg (by simp)]
  dsimp only
  rw [if_pos hsign, String.ofList_toList]
  rfl

theorem oldLines_script (script : List Edit) :
    oldLinesFromEntries (script.map fun e => ⟨e.sign, e.body⟩) = script.filterMap Edit.old := by
  unfold oldLinesFromEntries
  induction script with
  | nil => rfl
  | cons e script ih =>
    rw [map_cons, filterMap_cons]
    cases e with
    | keep line => exact congrArg (line :: ·) ih
    | delete line => exact congrArg (line :: ·) ih
    | insert line => exact ih

theorem newLines_script (script : List Edit) :
    newLinesFromEntries (script.map fun e => ⟨e.sign, e.body⟩) = script.filterMap Edit.new := by
  unfold newLinesFromEntries
  induction script with
  | nil => rfl
  | cons e script ih =>
    rw [map_cons, filterMap_cons]
    cases e with
    | keep line => exact congrArg (line :: ·) ih
    | delete line => exact ih
    | insert line => exact congrArg (line :: ·) ih

/-- The lines that the entries were made for are the ones that they find. -/
theorem applyReplacementEntries_script (script : List Edit) :
    applyReplacementEntries (script.filterMap Edit.old) (script.map fun e => ⟨e.sign, e.body⟩) =
      script.filterMap Edit.new := by
  induction script with
  | nil => rfl
  | cons e script ih =>
    rw [map_cons, filterMap_cons, filterMap_cons, applyReplacementEntries]
    cases e with
    | keep line => exact congrArg (line :: ·) ih
    | delete line => exact ih
    | insert line => exact congrArg (line :: ·) ih

theorem seekLineSequence_self {pattern : List String} (hne : pattern ≠ []) (more : List String) :
    seekLineSequence (pattern ++ more) pattern 0 = some 0 := by
  have hlength : pattern.length ≠ 0 := by simpa using hne
  have hmatch : lineSequenceMatches (((pattern ++ more).drop 0).take pattern.length) pattern
      .matchExact = true := by
    rw [drop_zero, take_left]
    unfold lineSequenceMatches
    rw [all_eq_true]
    intro p hp
    obtain ⟨i, _, rfl⟩ := getElem_of_mem hp
    simp [lineMatchesMode]
  have hexact : seekMode (pattern ++ more) pattern 0 .matchExact = some 0 := by
    unfold seekMode
    have hrange : (pattern ++ more).length - pattern.length + 1 - 0 = more.length + 1 := by
      rw [length_append]
      omega
    rw [hrange, range'_succ, find?_cons, hmatch]
  unfold seekLineSequence
  rw [if_neg hlength, if_neg (by rw [length_append]; omega), hexact]
  rfl

theorem applyHunk_script (path : String) (script : List Edit) (more : List String) :
    applyHunk path (script.filterMap Edit.old ++ more) ([], 0) ("@@" :: script.map Edit.line) =
      .ok (script.filterMap Edit.new, (script.filterMap Edit.old).length) := by
  have hhint : hintFromHunk ("@@" :: script.map Edit.line) = "" := by
    unfold hintFromHunk
    rw [find?_cons_of_pos (by decide)]
    decide
  unfold applyHunk
  dsimp only
  rw [entries_script, oldLines_script, newLines_script, hhint]
  split
  · next hnil =>
    rw [hnil]
    rfl
  · next want rest hold =>
    have hne : script.filterMap Edit.old ≠ [] := by
      rw [hold]
      simp
    rw [if_neg (by simp), seekLineSequence_self hne]
    dsimp only [HOrElse.hOrElse, OrElse.orElse, Option.orElse]
    simp only [take_zero, drop_zero, take_left, applyReplacementEntries_script,
      nil_append, Nat.zero_add]

/-- The text's final newline is left as it is. -/
theorem updatedText_script (path : String) {text : String} {steps : List Edit}
    (hcr : '\r' ∉ text.toList) (more : List String)
    (hlines : textLines text = steps.filterMap Edit.old ++ more) :
    updatedText path ["@@" :: steps.map Edit.line] text =
      .ok (if endsWith text "\n" then joinText (steps.filterMap Edit.new ++ more) ++ "\n"
        else joinText (steps.filterMap Edit.new ++ more)) := by
  unfold updatedText
  rw [normalizeNewlines_eq hcr]
  dsimp only
  rw [show splitText (trimEnding text "\n") = _ from hlines, foldlM_cons, applyHunk_script]
  show Except.ok (if endsWith text "\n" then
      joinText (steps.filterMap Edit.new ++ (steps.filterMap Edit.old ++ more).drop
        (steps.filterMap Edit.old).length) ++ "\n" else _) = _
  rw [drop_left]

section WholeFile

variable {path text : String} {script : List Edit}

theorem body_unbroken (hcr : '\r' ∉ text.toList)
    (hscript : script.filterMap Edit.old = textLines text)
    (hinserts : ∀ line, Edit.insert line ∈ script → Unbroken line) (he : e ∈ script) :
    Unbroken e.body := by
  have hold : ∀ line, e.old = some line → Unbroken line := by
    intro line hline
    have hmem : line ∈ textLines text := by
      rw [← hscript]
      exact mem_filterMap.mpr ⟨e, he, hline⟩
    obtain ⟨hnewline, hchars⟩ := mem_splitText hmem
    exact ⟨fun hc => hcr (mem_trimEnding (hchars _ hc)), hnewline⟩
  cases e with
  | keep line => exact hold line rfl
  | delete line => exact hold line rfl
  | insert line => exact hinserts line he

theorem line_unbroken (h : Unbroken e.body) : Unbroken e.line := by
  unfold Unbroken
  rw [line_toList]
  rcases sign_cases e with hsign | hsign | hsign
  all_goals
    rw [hsign]
    simp [h.1, h.2]

/-- The patch is one update, and the script's steps from a false end on are no part of it. -/
theorem parseV4APatch_script (hpath : trimSpace path = path) (hbreaks : Unbroken path)
    (hbodies : ∀ e ∈ script, Unbroken e.body) :
    parseV4APatch (scriptPatch path script) =
      .ok [.updateFile path "" ["@@" :: (readSteps script).map Edit.line]] := by
  have hlines : ∀ line ∈ "*** Begin Patch" :: ("*** Update File: " ++ path) :: "@@" ::
      (script.map Edit.line ++ ["*** End Patch"]), Unbroken line := by
    intro line hline
    rw [mem_cons, mem_cons, mem_cons, mem_append, mem_map,
      mem_singleton] at hline
    rcases hline with rfl | rfl | rfl | ⟨e, he, rfl⟩ | rfl
    · decide
    · unfold Unbroken
      rw [String.toList_append]
      simp [hbreaks.1, hbreaks.2]
    · decide
    · exact line_unbroken (hbodies e he)
    · decide
  have hcr : '\r' ∉ (scriptPatch path script).toList := by
    intro hc
    rcases mem_joinText hc with hnewline | ⟨line, hline, hc⟩
    · cases hnewline
    · exact (hlines line hline).1 hc
  unfold parseV4APatch
  rw [normalizeNewlines_eq hcr]
  unfold scriptPatch
  rw [splitText_joinText (fun line hline => (hlines line hline).2) (by simp)]
  exact parse_script hpath script

/-- From a kept line on that reads like the end of the patch the text stays as it was. -/
theorem applyPatch_script {σ : Type} (fm : FileMutator σ) (hpath : trimSpace path = path)
    (hbreaks : Unbroken path) (hcr : '\r' ∉ text.toList)
    (hscript : script.filterMap Edit.old = textLines text)
    (hbodies : ∀ e ∈ script, Unbroken e.body) {files files' : σ} {content : String}
    (hread : fm.readFileRaw path files = .ok text)
    (hcontent : content =
      if endsWith text "\n" then joinText ((readSteps script).filterMap Edit.new ++
        (lostSteps script).filterMap Edit.old) ++ "\n"
      else joinText ((readSteps script).filterMap Edit.new ++
        (lostSteps script).filterMap Edit.old))
    (hwrite : fm.writeFileRaw path content files = .ok files') :
    applyPatch fm (scriptPatch path script) files =
      (.ok ("applied patch to:\n" ++ joinText [path]), files') := by
  have hlines : textLines text =
      (readSteps script).filterMap Edit.old ++ (lostSteps script).filterMap Edit.old := by
    rw [← filterMap_append, read_append_lost, hscript]
  have hupdated := updatedText_script path hcr ((lostSteps script).filterMap Edit.old) hlines
  rw [← hcontent] at hupdated
  have hblank : ¬ (trimSpace "" ≠ "" ∧ "" ≠ path) := fun h => h.1 (by decide)
  have happly : (PatchOp.updateFile path "" ["@@" :: (readSteps script).map Edit.line]).apply fm
      files = (.ok [path], files') := by
    unfold PatchOp.apply
    dsimp only
    rw [hread]
    dsimp only
    rw [hupdated]
    dsimp only
    rw [hwrite]
    dsimp only
    rw [if_neg hblank]
  unfold applyPatch applyOps
  rw [parseV4APatch_script hpath hbreaks hbodies]
  dsimp only
  rw [happly]
  rfl

/-- The text as the patch leaves it is the edited text just when nothing that is lost changes it. -/
theorem joined_eq_edited (hbodies : ∀ e ∈ script, Unbroken e.body) :
    joinText ((readSteps script).filterMap Edit.new ++ (lostSteps script).filterMap Edit.old) =
        joinText (script.filterMap Edit.new) ↔
      (lostSteps script).filterMap Edit.old = (lostSteps script).filterMap Edit.new := by
  have hnew : script.filterMap Edit.new =
      (readSteps script).filterMap Edit.new ++ (lostSteps script).filterMap Edit.new := by
    rw [← filterMap_append, read_append_lost]
  rw [hnew]
  cases hlost : lostSteps script with
  | nil => simp
  | cons e lost =>
    have hends := lost_begins hlost
    have hbody : ∀ e ∈ script, ∀ line, e.old = some line ∨ e.new = some line →
        '\n' ∉ line.toList := by
      intro e he line hline
      have hsame : e.body = line := by
        cases e with
        | keep _ => simpa [Edit.old, Edit.new, Edit.body] using hline
        | delete _ => simpa [Edit.old, Edit.new, Edit.body] using hline
        | insert _ => simpa [Edit.old, Edit.new, Edit.body] using hline
      rw [← hsame]
      exact (hbodies e he).2
    have hread : ∀ line ∈ (readSteps script).filterMap Edit.new, '\n' ∉ line.toList := by
      intro line hline
      obtain ⟨e, he, hnew⟩ := mem_filterMap.mp hline
      exact hbody e (takeWhile_subset _ he) line (Or.inr hnew)
    have hmem : ∀ e' ∈ e :: lost, e' ∈ script := fun e' he' => mem_lost (by rw [hlost]; exact he')
    have hold : ∀ line ∈ (e :: lost).filterMap Edit.old, '\n' ∉ line.toList := by
      intro line hline
      obtain ⟨e', he', hline⟩ := mem_filterMap.mp hline
      exact hbody e' (hmem e' he') line (Or.inl hline)
    have hnew : ∀ line ∈ (e :: lost).filterMap Edit.new, '\n' ∉ line.toList := by
      intro line hline
      obtain ⟨e', he', hline⟩ := mem_filterMap.mp hline
      exact hbody e' (hmem e' he') line (Or.inr hline)
    have hkept : (e :: lost).filterMap Edit.old ≠ [] ∧ (e :: lost).filterMap Edit.new ≠ [] := by
      cases e with
      | keep line => exact ⟨by simp [Edit.old], by simp [Edit.new]⟩
      | delete line => cases hends
      | insert line => cases hends
    refine ⟨fun h => ?_, fun h => by rw [h]⟩
    apply append_cancel_left (joinText_injective ?_ ?_ ?_ ?_ h)
    · simp only [mem_append]
      rintro line (hline | hline)
      · exact hread line hline
      · exact hold line hline
    · simp only [mem_append]
      rintro line (hline | hline)
      · exact hread line hline
      · exact hnew line hline
    · simp [hkept.1]
    · simp [hkept.2]

end WholeFile

/-- A script is carried out just when the steps from a false end of the patch on change nothing. -/
theorem wholeFile_edited {σ : Type} (fm : FileMutator σ) (path text : String)
    (hpath : trimSpace path = path) (hbreaks : Unbroken path) (hcr : '\r' ∉ text.toList)
    (script : List Edit) (hscript : script.filterMap Edit.old = textLines text)
    (hinserts : ∀ line, Edit.insert line ∈ script → Unbroken line) (files : σ)
    (hread : fm.readFileRaw path files = .ok text)
    (hwrite : ∀ content, ∃ files', fm.writeFileRaw path content files = .ok files' ∧
      fm.readFileRaw path files' = .ok content) :
    (∃ message files', applyPatch fm (scriptPatch path script) files = (.ok message, files') ∧
        fm.readFileRaw path files' = .ok (edited text script)) ↔
      (lostSteps script).filterMap Edit.old = (lostSteps script).filterMap Edit.new := by
  have hbodies : ∀ e ∈ script, Unbroken e.body := fun e => body_unbroken hcr hscript hinserts
  rw [← joined_eq_edited hbodies]
  obtain ⟨files', hwritten, hback⟩ := hwrite (if endsWith text "\n" then
    joinText ((readSteps script).filterMap Edit.new ++ (lostSteps script).filterMap Edit.old) ++ "\n"
    else joinText ((readSteps script).filterMap Edit.new ++ (lostSteps script).filterMap Edit.old))
  have happlied := applyPatch_script fm hpath hbreaks hcr hscript hbodies hread rfl hwritten
  refine ⟨?_, fun hsame => ⟨_, files', happlied, ?_⟩⟩
  · rintro ⟨message, files'', happlied', hread'⟩
    rw [happlied] at happlied'
    cases happlied'
    rw [hback] at hread'
    have hsame := Except.ok.inj hread'
    unfold edited at hsame
    split at hsame
    · exact (String.append_left_inj _).mp hsame
    · exact hsame
  · rw [hback, hsame]
    rfl

/-- Files in memory, under their paths. -/
def memory : FileMutator (String → Option String) where
  readFileRaw path files := ( files path).elim (.error "no such file") .ok
  writeFileRaw path content files := .ok (Function.update files path (some content))
  removePath path files := .ok (Function.update files path none)
  renamePath path moveTo files :=
    .ok (Function.update (Function.update files path none) moveTo (files path))

theorem memory_written (path : String) (files : String → Option String) (content : String) :
    ∃ files', memory.writeFileRaw path content files = .ok files' ∧
      memory.readFileRaw path files' = .ok content :=
  ⟨Function.update files path (some content), rfl, by simp [memory]⟩

theorem wholeFile_edited_marked :
    (∃ message files', applyPatch memory
        (scriptPatch "a.md" [.keep "@@ -1", .delete "*** End Patch", .insert "*** x"])
        (fun _ => some "@@ -1\n*** End Patch\n") = (.ok message, files') ∧
      memory.readFileRaw "a.md" files' = .ok (edited "@@ -1\n*** End Patch\n"
        [.keep "@@ -1", .delete "*** End Patch", .insert "*** x"])) ↔
      (lostSteps [.keep "@@ -1", .delete "*** End Patch", .insert "*** x"]).filterMap Edit.old =
        (lostSteps [.keep "@@ -1", .delete "*** End Patch", .insert "*** x"]).filterMap Edit.new :=
  wholeFile_edited memory "a.md" "@@ -1\n*** End Patch\n" (by decide) (by decide)
    (by decide) [.keep "@@ -1", .delete "*** End Patch", .insert "*** x"] (by decide)
    (fun line hline => by
      have hx : line = "*** x" := by simpa using hline
      subst hx
      decide) _ rfl
    (memory_written "a.md" _)

/-- What is inserted behind a kept end of a patch is lost, and the patch is said to be applied. -/
theorem kept_end_ends_patch :
    [Edit.keep "*** End Patch", .insert "x"].filterMap Edit.old = textLines "*** End Patch\n" ∧
      (∃ message, (applyPatch memory
        (scriptPatch "a.md" [.keep "*** End Patch", .insert "x"])
        fun _ => some "*** End Patch\n").1 = .ok message) ∧
      memory.readFileRaw "a.md" (applyPatch memory
        (scriptPatch "a.md" [.keep "*** End Patch", .insert "x"])
        fun _ => some "*** End Patch\n").2 = .ok "*** End Patch\n" ∧
      edited "*** End Patch\n" [.keep "*** End Patch", .insert "x"] = "*** End Patch\nx\n" := by
  refine ⟨by decide, ⟨_, rfl⟩, ?_, by decide⟩
  decide

end Evener.Tool
