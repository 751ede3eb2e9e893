/-
  A text with a brace that has no partner is refused.

  A group that a round replaces has both its braces, and so has each of its parts: a brace without
  partner is still there after the round, and the last round finds it.
-/
import Mathlib.Data.List.Nodup
import Evener.GlobPattern.Limits

namespace Evener.GlobPattern

open List
open Evener.Lib (Bytes)

/-! ## Whole steps of any text -/

/-- Not a byte that a scanner acts on. -/
def Inert (l : Bytes) : Prop := l ≠ [openBrace] ∧ l ≠ [closeBrace] ∧ l ≠ [comma]

theorem lexemesFrom_class (text : Bytes) :
    ((∃ body after, text = body ++ after ∧ body ≠ [] ∧ ∀ step rest,
        lexemesFrom .inClass step (body ++ rest) = (step ++ body) :: lexemesFrom .between [] rest) ∨
      ∀ step, lexemesFrom .inClass step text = [step ++ text]) ∧
    ((∃ body after, text = body ++ after ∧ body ≠ [] ∧ ∀ step rest,
        lexemesFrom .classEscape step (body ++ rest) =
          (step ++ body) :: lexemesFrom .between [] rest) ∨
      ∀ step, lexemesFrom .classEscape step text = [step ++ text]) := by
  induction text with
  | nil => exact ⟨.inr fun step => by simp [lexemesFrom], .inr fun step => by simp [lexemesFrom]⟩
  | cons b text ih =>
    obtain ⟨hclass, hescape⟩ := ih
    constructor
    · by_cases hb : b = backslash
      · rcases hescape with ⟨body, after, rfl, -, hbody⟩ | hopen
        · refine .inl ⟨b :: body, after, rfl, cons_ne_nil _ _, fun step rest => ?_⟩
          rw [cons_append, lexemesFrom, if_pos hb, hbody, append_assoc]
          rfl
        · refine .inr fun step => ?_
          rw [lexemesFrom, if_pos hb, hopen, append_assoc]
          rfl
      · by_cases hclose : b = closeBracket
        · refine .inl ⟨[b], text, rfl, cons_ne_nil _ _, fun step rest => ?_⟩
          rw [cons_append, lexemesFrom, if_neg hb, if_pos hclose, nil_append]
        · rcases hclass with ⟨body, after, rfl, -, hbody⟩ | hopen
          · refine .inl ⟨b :: body, after, rfl, cons_ne_nil _ _, fun step rest => ?_⟩
            rw [cons_append, lexemesFrom, if_neg hb, if_neg hclose, hbody, append_assoc]
            rfl
          · refine .inr fun step => ?_
            rw [lexemesFrom, if_neg hb, if_neg hclose, hopen, append_assoc]
            rfl
    · rcases hclass with ⟨body, after, rfl, -, hbody⟩ | hopen
      · refine .inl ⟨b :: body, after, rfl, cons_ne_nil _ _, fun step rest => ?_⟩
        rw [cons_append, lexemesFrom, hbody, append_assoc]
        rfl
      · refine .inr fun step => ?_
        rw [lexemesFrom, hopen, append_assoc]
        rfl

/-- The first step of a text, and what is behind it; or the text is one step without an end. -/
theorem lexemes_first (b : UInt8) (text : Bytes) :
    (∃ l after, b :: text = l ++ after ∧ l ≠ [] ∧ Whole l) ∨
      (lexemes (b :: text) = [b :: text] ∧ Inert (b :: text)) := by
  by_cases hb : b = backslash
  · cases text with
    | nil =>
      refine .inr ⟨by simp [lexemes, lexemesFrom, hb], ?_⟩
      rw [hb]
      exact ⟨by decide, by decide, by decide⟩
    | cons c text =>
      exact .inl ⟨[b, c], text, rfl, cons_ne_nil _ _, fun rest => by simp [lexemesFrom, hb]⟩
  · by_cases hclass : b = openBracket
    · rcases (lexemesFrom_class text).1 with ⟨body, after, rfl, -, hbody⟩ | hopen
      · refine .inl ⟨b :: body, after, rfl, cons_ne_nil _ _, fun rest => ?_⟩
        rw [cons_append, lexemesFrom, if_neg hb, if_pos hclass, hbody]
        rfl
      · refine .inr ⟨?_, ?_⟩
        · rw [lexemes, lexemesFrom, if_neg hb, if_pos hclass, hopen]
          rfl
        · rw [hclass]
          exact ⟨by simp [openBracket, openBrace], by simp [openBracket, closeBrace],
            by simp [openBracket, comma]⟩
    · exact .inl ⟨[b], text, rfl, cons_ne_nil _ _, whole_single hb hclass⟩

/-- Any text is whole steps and at most one step without an end. -/
theorem exists_steps : ∀ (n : Nat) (text : Bytes), text.length ≤ n →
    ∃ ls ts : List Bytes, text = (ls ++ ts).flatten ∧ (∀ l ∈ ls, Whole l) ∧
      lexemes ts.flatten = ts ∧ ∀ l ∈ ts, Inert l
  | _, [], _ => ⟨[], [], rfl, by simp, rfl, by simp⟩
  | 0, b :: text, h => absurd h (by simp)
  | n + 1, b :: text, h => by
    obtain ⟨l, after, htext, hne, hl⟩ | ⟨hone, hinert⟩ := lexemes_first b text
    · have hlength : after.length ≤ n := by
        have hsum := congrArg List.length htext
        have hpos := length_pos_of_ne_nil hne
        rw [length_append] at hsum
        omega
      obtain ⟨ls, ts, rfl, hls, hts, hinert⟩ := exists_steps n after hlength
      refine ⟨l :: ls, ts, by rw [htext, cons_append, flatten_cons], ?_, hts, hinert⟩
      intro x hx
      rcases mem_cons.mp hx with rfl | hx
      · exact hl
      · exact hls x hx
    · refine ⟨[], [b :: text], by simp, by simp, ?_, ?_⟩
      · rw [flatten_singleton]
        exact hone
      · intro l hl
        rw [mem_singleton.mp hl]
        exact hinert

theorem lexemes_steps {ls ts : List Bytes} (hls : ∀ l ∈ ls, Whole l)
    (hts : lexemes ts.flatten = ts) : lexemes (ls ++ ts).flatten = ls ++ ts := by
  rw [flatten_append, lexemes, lexemesFrom_flatten hls]
  exact congrArg (ls ++ ·) hts

/-! ## Partners -/

/-- How many braces are open behind the steps; none where one is closed that is not open. -/
def heightFrom : Nat → List Bytes → Option Nat
  | height, [] => some height
  | height, l :: rest =>
    if l = [openBrace] then heightFrom (height + 1) rest
    else if l = [closeBrace] then
      match height with
      | 0 => none
      | height + 1 => heightFrom height rest
    else heightFrom height rest

/-- Every brace outside the escapes and the classes has a partner. -/
def Partnered (pattern : Bytes) : Prop := heightFrom 0 (lexemes pattern) = some 0

theorem heightFrom_open (height : Nat) (rest : List Bytes) :
    heightFrom height ([openBrace] :: rest) = heightFrom (height + 1) rest := by
  cases height <;> simp only [heightFrom, if_true]

theorem heightFrom_close (height : Nat) (rest : List Bytes) :
    heightFrom (height + 1) ([closeBrace] :: rest) = heightFrom height rest := by
  have hne : ¬ [closeBrace] = [openBrace] := by decide
  simp only [heightFrom, if_neg hne, if_true]

theorem heightFrom_append (height : Nat) (a b : List Bytes) :
    heightFrom height (a ++ b) = (heightFrom height a).bind (heightFrom · b) := by
  induction a generalizing height with
  | nil => rfl
  | cons l a ih =>
    rw [cons_append]
    cases height <;> simp only [heightFrom, ih] <;> split <;> first | rfl | (split <;> rfl)

theorem heightFrom_raise {height next : Nat} {a : List Bytes} (h : heightFrom height a = some next)
    (k : Nat) : heightFrom (height + k) a = some (next + k) := by
  induction a generalizing height with
  | nil =>
    rw [heightFrom] at h ⊢
    rw [Option.some.inj h]
  | cons l a ih =>
    unfold heightFrom at h ⊢
    by_cases hopen : l = [openBrace]
    · rw [if_pos hopen] at h ⊢
      rw [Nat.add_right_comm]
      exact ih h
    · by_cases hclose : l = [closeBrace]
      · rw [if_neg hopen, if_pos hclose] at h ⊢
        cases height with
        | zero => cases h
        | succ height =>
          rw [Nat.add_right_comm]
          exact ih h
      · rw [if_neg hopen, if_neg hclose] at h ⊢
        exact ih h

/-- No comma, and each brace has its partner. -/
def Closed (x : List Bytes) : Prop := [comma] ∉ x ∧ heightFrom 0 x = some 0

variable {x f : List Bytes}

theorem Closed.heightFrom (h : Closed x) (height : Nat) : heightFrom height x = some height := by
  have hraise := heightFrom_raise h.2 height
  rwa [Nat.zero_add] at hraise

theorem closed_nil : Closed [] := ⟨by simp, rfl⟩

theorem Closed.append {y : List Bytes} (hx : Closed x) (hy : Closed y) : Closed (x ++ y) := by
  refine ⟨by simp [hx.1, hy.1], ?_⟩
  rw [heightFrom_append, hx.2]
  exact hy.2

theorem closed_inert {l : Bytes} (h : Inert l) : Closed [l] := by
  refine ⟨fun hmem => h.2.2 (mem_singleton.mp hmem).symm, ?_⟩
  simp only [GlobPattern.heightFrom, if_neg h.1, if_neg h.2.1]

theorem heightFrom_group (h : ∀ height, heightFrom height x = some height) (height : Nat) :
    heightFrom height ([openBrace] :: (x ++ [[closeBrace]])) = some height := by
  rw [heightFrom_open, heightFrom_append, h, Option.bind_some, heightFrom_close, heightFrom]

theorem Closed.group (h : Closed x) : Closed ([openBrace] :: (x ++ [[closeBrace]])) := by
  refine ⟨?_, heightFrom_group h.heightFrom 0⟩
  have hopen : [comma] ≠ [openBrace] := by decide
  have hclose : [comma] ≠ [closeBrace] := by decide
  simp only [mem_cons, mem_append, not_mem_nil, hopen, hclose, h.1, or_self,
    not_false_eq_true]

theorem Closed.hasTopLevelCommaFrom (h : Closed x) (rest : List Bytes) :
    hasTopLevelCommaFrom 0 (x ++ rest) = hasTopLevelCommaFrom 0 rest := by
  suffices hrun : ∀ (height next : Nat), GlobPattern.heightFrom height x = some next →
      GlobPattern.hasTopLevelCommaFrom height (x ++ rest) =
        GlobPattern.hasTopLevelCommaFrom next rest from hrun 0 0 h.2
  obtain ⟨hcomma, -⟩ := h
  induction x with
  | nil =>
    intro height next h
    rw [GlobPattern.heightFrom] at h
    rw [Option.some.inj h, nil_append]
  | cons l x ih =>
    intro height next h
    rw [mem_cons, not_or] at hcomma
    rw [cons_append]
    unfold GlobPattern.heightFrom at h
    by_cases hopen : l = [openBrace]
    · rw [if_pos hopen] at h
      rw [hopen, hasTopLevelCommaFrom_open]
      exact ih hcomma.2 _ _ h
    · by_cases hclose : l = [closeBrace]
      · rw [if_neg hopen, if_pos hclose] at h
        rw [hclose, hasTopLevelCommaFrom_close]
        cases height with
        | zero => cases h
        | succ height => exact ih hcomma.2 _ _ h
      · rw [if_neg hopen, if_neg hclose] at h
        rw [hasTopLevelCommaFrom_skip hopen hclose fun heq => hcomma.1 heq.1.symm]
        exact ih hcomma.2 _ _ h

/-! ## The contents of groups -/

/-- Closed pieces with commas between them. -/
def Flat (f : List Bytes) : Prop :=
  ∃ (done : List (List Bytes)) (last : List Bytes),
    f = (done.map (· ++ [[comma]])).flatten ++ last ∧ (∀ x ∈ done, Closed x) ∧ Closed last

theorem flat_nil : Flat [] := ⟨[], [], rfl, by simp, closed_nil⟩

theorem Flat.append (hf : Flat f) (hx : Closed x) : Flat (f ++ x) := by
  obtain ⟨done, last, rfl, hdone, hlast⟩ := hf
  exact ⟨done, last ++ x, append_assoc .., hdone, hlast.append hx⟩

theorem Flat.comma (hf : Flat f) : Flat (f ++ [[comma]]) := by
  obtain ⟨done, last, rfl, hdone, hlast⟩ := hf
  refine ⟨done ++ [last], [], by simp, ?_, closed_nil⟩
  intro x hx
  rcases mem_append.mp hx with hx | hx
  · exact hdone x hx
  · rw [mem_singleton.mp hx]
    exact hlast

theorem Flat.heightFrom (hf : Flat f) (height : Nat) : heightFrom height f = some height := by
  obtain ⟨done, last, rfl, hdone, hlast⟩ := hf
  induction done with
  | nil => exact hlast.heightFrom height
  | cons x done ih =>
    have hcomma : GlobPattern.heightFrom height [[GlobPattern.comma]] = some height := by
      simp [GlobPattern.heightFrom, GlobPattern.comma, openBrace, closeBrace]
    rw [map_cons, flatten_cons, append_assoc, append_assoc, heightFrom_append,
      (hdone x mem_cons_self).heightFrom, Option.bind_some, heightFrom_append, hcomma,
      Option.bind_some]
    exact ih fun x hx => hdone x (mem_cons_of_mem _ hx)

/-- A content without a comma at its top has none. -/
theorem Flat.closed (hf : Flat f) (h : hasTopLevelCommaFrom 0 f = false) : Closed f := by
  obtain ⟨done, last, rfl, hdone, hlast⟩ := hf
  cases done with
  | nil => exact hlast
  | cons x done =>
    rw [map_cons, flatten_cons, append_assoc, append_assoc,
      (hdone x mem_cons_self).hasTopLevelCommaFrom, singleton_append,
      hasTopLevelCommaFrom_comma] at h
    cases h

/-- The parts of a content are closed. -/
theorem Flat.splitFrom (hf : Flat f) :
    ∃ parts : List (List Bytes), parts ≠ [] ∧ splitFrom [] f = parts.map List.flatten ∧
      ∀ x ∈ parts, Closed x ∧ ∀ l ∈ x, l ∈ f := by
  obtain ⟨done, last, rfl, hdone, hlast⟩ := hf
  refine ⟨done ++ [last], by simp, ?_, ?_⟩
  · induction done with
    | nil =>
      have hskip := splitFrom_skip hlast.1 [] []
      rw [append_nil, nil_append, GlobPattern.splitFrom] at hskip
      simpa using hskip
    | cons x done ih =>
      rw [map_cons, flatten_cons, append_assoc, append_assoc,
        splitFrom_skip (hdone x mem_cons_self).1, singleton_append, GlobPattern.splitFrom,
        if_pos rfl, ih fun x hx => hdone x (mem_cons_of_mem _ hx)]
      simp
  · intro x hx
    rcases mem_append.mp hx with hx | hx
    · refine ⟨hdone x hx, fun l hl => ?_⟩
      refine mem_append_left _ (mem_flatten.mpr ⟨_, mem_map_of_mem hx, ?_⟩)
      exact mem_append_left _ hl
    · rw [mem_singleton.mp hx]
      exact ⟨hlast, fun l hl => mem_append_right _ hl⟩

/-! ## The search for a group -/

/-- What is behind a scan, with the open braces in it and what stands behind each. -/
inductive Framed : List Bytes → List Nat → Prop where
  | base {f : List Bytes} (hf : Flat f) : Framed f []
  | opened {before f : List Bytes} {stack : List Nat} (h : Framed before stack) (hf : Flat f) :
    Framed (before ++ [openBrace] :: f) (before.flatten.length :: stack)

theorem Framed.append {d : List Bytes} {stack : List Nat} (h : Framed d stack) (hx : Closed x) :
    Framed (d ++ x) stack := by
  cases h with
  | base hf => exact .base (hf.append hx)
  | opened h hf =>
    rw [append_assoc, cons_append]
    exact .opened h (hf.append hx)

theorem Framed.comma {d : List Bytes} {stack : List Nat} (h : Framed d stack) :
    Framed (d ++ [[comma]]) stack := by
  cases h with
  | base hf => exact .base hf.comma
  | opened h hf =>
    rw [append_assoc, cons_append]
    exact .opened h hf.comma

/-- What the search for a group tells of a text's whole steps `ls` and the rest `ts`. -/
def Told (ls ts : List Bytes) : Except BraceError (Option (Nat × Nat)) → Prop
  | .error _ => True
  | .ok none => heightFrom 0 (ls ++ ts) = some 0
  | .ok (some (start, stop)) =>
    ∃ before f after, ls = before ++ [openBrace] :: (f ++ [closeBrace] :: after) ∧ Flat f ∧
      start = before.flatten.length ∧ stop = before.flatten.length + 1 + f.flatten.length

theorem findGroupFrom_inert {pattern : Bytes} {ts : List Bytes} (hts : ∀ l ∈ ts, Inert l) (i : Nat)
    (stack : List Nat) :
    findGroupFrom pattern i stack ts = unmatchedIn stack := by
  rw [findGroupFrom_eq_scan]
  induction ts generalizing i with
  | nil => cases stack <;> rfl
  | cons l ts ih =>
    have hl := hts l mem_cons_self
    rw [scanFrom_skip hl.1 hl.2.1]
    exact ih (fun l hl => hts l (mem_cons_of_mem _ hl)) _

theorem lexemes_slice {before f after : List Bytes} (hf : ∀ l ∈ f, Whole l) :
    slice (before ++ [openBrace] :: (f ++ after)).flatten (before.flatten.length + 1)
      (before.flatten.length + 1 + f.flatten.length) = f.flatten ∧ lexemes f.flatten = f := by
  refine ⟨?_, lexemes_flatten hf⟩
  have hinside := slice_inside before.flatten f.flatten after.flatten openBrace
  simpa using hinside

/-- The induction is on the steps ahead; what is behind stays framed. -/
theorem findGroupFrom_told {pattern : Bytes} {ts : List Bytes} (hts : ∀ l ∈ ts, Inert l) :
    ∀ {ls d : List Bytes} {stack : List Nat}, Framed d stack → (∀ l ∈ d ++ ls, Whole l) →
    pattern = (d ++ ls ++ ts).flatten →
    Told (d ++ ls) ts (findGroupFrom pattern d.flatten.length stack (ls ++ ts))
  | [], d, stack, hd, hwhole, hpattern => by
    rw [nil_append, findGroupFrom_inert hts]
    cases hd with
    | base hf =>
      have hinert : ∀ height, GlobPattern.heightFrom height ts = some height := by
        clear hpattern
        induction ts with
        | nil => exact fun _ => rfl
        | cons l ts ih =>
          intro height
          have hl := closed_inert (hts l mem_cons_self)
          rw [← singleton_append, heightFrom_append, hl.heightFrom]
          exact ih (fun l hl => hts l (mem_cons_of_mem _ hl)) height
      simp only [unmatchedIn, Told]
      rw [append_nil, heightFrom_append, hf.heightFrom]
      exact hinert 0
    | opened h hf => trivial
  | l :: ls, d, stack, hd, hwhole, hpattern => by
    have hnext : d ++ l :: ls = (d ++ [l]) ++ ls := by simp
    have hlength : (d ++ [l]).flatten.length = d.flatten.length + l.length := by simp
    rw [hnext] at hwhole hpattern ⊢
    rw [cons_append, findGroupFrom_eq_scan]
    by_cases hopen : l = [openBrace]
    · subst hopen
      rw [scanFrom_open, ← findGroupFrom_eq_scan]
      have hframed := Framed.opened hd flat_nil
      have hstep := findGroupFrom_told hts hframed hwhole hpattern
      rwa [hlength] at hstep
    · by_cases hclose : l = [closeBrace]
      · subst hclose
        cases hd with
        | base hf =>
          have hne : ¬ [closeBrace] = [openBrace] := by decide
          simp only [scanFrom, if_neg hne, if_true, Told]
        | @opened before f stack h hf =>
          have hf' : ∀ l ∈ f, Whole l := fun l hl => hwhole l (by simp [hl])
          have htokens : before ++ [openBrace] :: f ++ [[closeBrace]] ++ ls ++ ts =
              before ++ [openBrace] :: (f ++ [closeBrace] :: (ls ++ ts)) := by simp
          obtain ⟨hslice, hlexemes⟩ := @lexemes_slice before f ([closeBrace] :: (ls ++ ts)) hf'
          have hstop : (before ++ [openBrace] :: f).flatten.length =
              before.flatten.length + 1 + f.flatten.length := by
            simp only [flatten_append, flatten_cons, length_append,
              length_singleton]
            omega
          rw [htokens] at hpattern
          rw [scanFrom_close, foundAt, hstop, hpattern, hslice, ← hpattern, hasTopLevelComma,
            hlexemes]
          by_cases hcomma : hasTopLevelCommaFrom 0 f = true
          · rw [if_pos hcomma]
            exact ⟨before, f, ls, by simp, hf, rfl, rfl⟩
          · rw [if_neg hcomma]
            have hgroup := (hf.closed (Bool.not_eq_true _ ▸ hcomma)).group
            have hframed := h.append hgroup
            have hjoin : before ++ [openBrace] :: f ++ [[closeBrace]] =
                before ++ [openBrace] :: (f ++ [[closeBrace]]) := by simp
            rw [hjoin] at hwhole htokens hlength ⊢
            rw [← htokens] at hpattern
            have hstep := findGroupFrom_told hts hframed hwhole hpattern
            rw [hlength] at hstep
            rw [← findGroupFrom_eq_scan, ← hstop]
            exact hstep
      · by_cases hcomma : l = [comma]
        · subst hcomma
          rw [scanFrom_skip hopen hclose, ← findGroupFrom_eq_scan, ← hlength]
          exact findGroupFrom_told hts hd.comma hwhole hpattern
        · rw [scanFrom_skip hopen hclose, ← findGroupFrom_eq_scan, ← hlength]
          exact findGroupFrom_told hts (hd.append (closed_inert ⟨hopen, hclose, hcomma⟩)) hwhole
            hpattern

/-! ## Refusal -/

/-- A round on a text with a brace without partner leaves such texts only. -/
theorem findExpandableGroup_told {pattern : Bytes} (h : ¬ Partnered pattern) :
    (∃ cause, findExpandableGroup pattern = .error cause) ∨
    ∃ start stop, findExpandableGroup pattern = .ok (some (start, stop)) ∧
      splitAlternatives (slice pattern (start + 1) stop) ≠ [] ∧
      ∀ part ∈ splitAlternatives (slice pattern (start + 1) stop),
        ¬ Partnered (pattern.take start ++ part ++ pattern.drop (stop + 1)) := by
  obtain ⟨ls, ts, rfl, hls, hts, hinert⟩ := exists_steps _ pattern (Nat.le_refl _)
  have htold := findGroupFrom_told hinert (.base flat_nil) hls rfl
  have hlexemes := lexemes_steps hls hts
  rw [nil_append, flatten_nil, length_nil] at htold
  unfold Partnered at h
  rw [hlexemes] at h
  unfold findExpandableGroup
  rw [hlexemes]
  cases hfind : findGroupFrom (ls ++ ts).flatten 0 [] (ls ++ ts) with
  | error cause => exact .inl ⟨cause, rfl⟩
  | ok found =>
    rw [hfind] at htold
    cases found with
    | none => exact absurd htold h
    | some place =>
      obtain ⟨before, f, after, rfl, hf, hstart, hstop⟩ := htold
      refine .inr ⟨place.1, place.2, rfl, ?_⟩
      have hwhole : ∀ l ∈ before ++ f ++ after, Whole l := by
        intro l hl
        apply hls
        simp only [mem_append, mem_cons] at hl ⊢
        tauto
      have hf' : ∀ l ∈ f, Whole l := fun l hl => hwhole l (by simp [hl])
      have hpattern : (before ++ [openBrace] :: (f ++ [closeBrace] :: after) ++ ts).flatten =
          before.flatten ++ openBrace ::
            (f.flatten ++ closeBrace :: (after.flatten ++ ts.flatten)) := by
        simp
      obtain ⟨parts, hne, hsplit, hparts⟩ := hf.splitFrom
      rw [hstart, hstop, hpattern, slice_inside, take_left, drop_behind, splitAlternatives,
        lexemes_flatten hf', hsplit]
      refine ⟨by simpa using hne, ?_⟩
      intro part hpart
      obtain ⟨x, hx, rfl⟩ := mem_map.mp hpart
      obtain ⟨hclosed, hmem⟩ := hparts x hx
      have hleft : ∀ l ∈ before ++ x ++ after, Whole l := by
        intro l hl
        apply hwhole
        simp only [mem_append] at hl ⊢
        rcases hl with (hl | hl) | hl
        · exact .inl (.inl hl)
        · exact .inl (.inr (hmem l hl))
        · exact .inr hl
      have hjoined : before.flatten ++ x.flatten ++ (after.flatten ++ ts.flatten) =
          (before ++ x ++ after ++ ts).flatten := by
        simp
      -- the part leaves the height as the whole group does
      have hheight : heightFrom 0 (before ++ x ++ after ++ ts) =
          heightFrom 0 (before ++ [openBrace] :: (f ++ [closeBrace] :: after) ++ ts) := by
        have hgroup : before ++ [openBrace] :: (f ++ [closeBrace] :: after) ++ ts =
            before ++ ([openBrace] :: (f ++ [[closeBrace]])) ++ (after ++ ts) := by
          simp
        have hbody : ∀ height, heightFrom height ([openBrace] :: (f ++ [[closeBrace]])) =
            heightFrom height x := by
          intro height
          rw [heightFrom_group hf.heightFrom, hclosed.heightFrom]
        rw [hgroup, append_assoc _ after, heightFrom_append, heightFrom_append,
          heightFrom_append _ _ (after ++ ts), heightFrom_append _ before]
        simp only [hbody]
      rw [hjoined, Partnered, lexemes_steps hleft hts, hheight]
      exact h

theorem unpartnered_refused : ∀ {left : Nat} {pattern : Bytes}, ¬ Partnered pattern →
    ∃ err, expandWithin left pattern = .error err
  | 0, _, _ => ⟨_, rfl⟩
  | left + 1, pattern, h => by
    rw [expandWithin]
    obtain ⟨cause, hcause⟩ | ⟨start, stop, hfind, hne, hparts⟩ := findExpandableGroup_told h
    · rw [hcause]
      exact ⟨_, rfl⟩
    · rw [hfind]
      dsimp only
      cases hsplit : splitAlternatives (slice pattern (start + 1) stop) with
      | nil => exact absurd hsplit hne
      | cons part parts =>
        have hpart := hparts part (hsplit ▸ mem_cons_self)
        obtain ⟨err, herr⟩ := @unpartnered_refused left _ hpart
        rw [map_cons, expandEach, herr]
        exact ⟨err, rfl⟩

/-! ## What is refused -/

theorem expandEach_length {expandOne : Bytes → Except ExpandError (List Bytes)} :
    ∀ {candidates acc result : List Bytes}, acc.length ≤ maxExpansions →
    expandEach expandOne candidates acc = .ok result → result.length ≤ maxExpansions
  | [], acc, result, hacc, h => by
    rw [expandEach] at h
    cases h
    exact hacc
  | c :: cs, acc, result, hacc, h => by
    rw [expandEach] at h
    cases hc : expandOne c with
    | error err => rw [hc] at h; cases h
    | ok expanded =>
      rw [hc] at h
      dsimp only at h
      split at h
      · cases h
      · refine expandEach_length ?_ h
        rw [length_append]
        omega

theorem expandWithin_length : ∀ {left : Nat} {pattern : Bytes} {result : List Bytes},
    expandWithin left pattern = .ok result → result.length ≤ maxExpansions
  | 0, _, _, h => by cases h
  | left + 1, pattern, result, h => by
    rw [expandWithin] at h
    split at h
    · cases h
    · split at h
      · exact expandWithin_length h
      · cases h
        exact Nat.le_trans (Nat.le_refl 1) (by decide)
    · exact expandEach_length (Nat.zero_le _) h

/-- What a tree means is at most what its expansion lists. -/
theorem distinct_meaning_le {t : PatternTree} {result : List Bytes}
    (h : expandAt t.text 0 = .ok result) : (distinct t.meaning).length ≤ maxExpansions := by
  have hsub : distinct t.meaning ⊆ result := by
    intro b hb
    rw [mem_distinct] at hb
    exact (expandWithin_meaning t.fits h b).mpr hb
  exact Nat.le_trans (subperm_of_subset (nodup_distinct _) hsub).length_le
    (expandWithin_length h)

theorem expand_refuses :
    (∀ t : PatternTree, t.groups < 128 →
      ((∃ err, expand t.text = .error err) ↔ maxExpansions < t.spread)) ∧
    (∀ t : PatternTree, maxExpansions < (distinct t.meaning).length →
      ∃ err, expand t.text = .error err) ∧
    ∀ pattern, ¬ Partnered pattern → ∃ err, expand pattern = .error err := by
  refine ⟨fun t => tree_refused_iff, ?_, ?_⟩
  · intro t hmany
    rw [expand_error_iff]
    cases h : expandAt t.text 0 with
    | error err => exact ⟨err, rfl⟩
    | ok result => exact absurd (distinct_meaning_le h) (Nat.not_le.mpr hmany)
  · intro pattern h
    rw [expand_error_iff]
    exact unpartnered_refused h

/-- `{a,{b,…}}`, a group for each byte. -/
def stair : List Atom → Pattern
  | [] => .nil
  | a :: rest => .group (.atom a .nil) (.cons (stair rest) .nil) .nil

theorem stair_fits : ∀ {as : List Atom} {inside : Bool}, (∀ a ∈ as, a.text ≠ [comma]) →
    (stair as).Fits inside
  | [], _, _ => by rw [stair, Pattern.Fits]; trivial
  | a :: as, _, h => by
    have hrest : (stair as).Fits true := stair_fits fun a ha => h a (mem_cons_of_mem _ ha)
    simp only [stair, Pattern.Fits, Alternatives.Fits, and_true]
    exact ⟨fun _ => h a mem_cons_self, hrest⟩

/-- `{a,{b,{c,{d,{e,{f,{g,{h,{i,}}}}}}}}}`. -/
def stairTree : PatternTree where
  root := stair [plainByte 97, plainByte 98, plainByte 99, plainByte 100, plainByte 101,
    plainByte 102, plainByte 103, plainByte 104, plainByte 105]
  fits := stair_fits (by decide)

/-- `{a,b}{a,b}…`, of `n` groups. -/
def words : Nat → Pattern
  | 0 => .nil
  | n + 1 => .group (.atom (plainByte 97) .nil) (.cons (.atom (plainByte 98) .nil) .nil) (words n)

theorem words_fits (n : Nat) : (words n).Fits false := by
  induction n with
  | zero => rw [words, Pattern.Fits]; trivial
  | succ n ih =>
    simp only [words, Pattern.Fits, Alternatives.Fits, and_true]
    exact ⟨by decide, by decide, ih⟩

/-- They are the words of `n` letters, each of them once. -/
theorem words_meaning (n : Nat) : (words n).meaning.Nodup ∧ (words n).meaning.length = 2 ^ n := by
  induction n with
  | zero => exact ⟨nodup_singleton _, rfl⟩
  | succ n ih =>
    have hmeaning : (words (n + 1)).meaning =
        (words n).meaning.map (97 :: ·) ++ (words n).meaning.map (98 :: ·) := by
      simp [words, Pattern.meaning, Alternatives.meaning, plainByte, Atom.text]
    rw [hmeaning, nodup_append, length_append, length_map, length_map, ih.2]
    refine ⟨⟨ih.1.map cons_injective, ih.1.map cons_injective, ?_⟩, by omega⟩
    intro a ha b hb
    obtain ⟨_, _, rfl⟩ := mem_map.mp ha
    obtain ⟨_, _, rfl⟩ := mem_map.mp hb
    exact fun h => absurd (List.cons.inj h).1 (by decide)

theorem expand_refuses_trees :
    (¬ ∃ err, expand nestedTree.text = .error err) ∧ (∃ err, expand stairTree.text = .error err) ∧
      (∃ err, expand (words 9).text = .error err) ∧ ∃ err, expand [openBrace] = .error err := by
  obtain ⟨hspread, hmeaning, hpartners⟩ := expand_refuses
  refine ⟨fun h => ?_, (hspread stairTree (by decide)).mpr (by decide),
    hmeaning ⟨words 9, words_fits 9⟩ ?_, hpartners [openBrace] (by unfold Partnered; decide)⟩
  · exact absurd ((hspread nestedTree (by decide)).mp h) (by decide)
  · obtain ⟨hnodup, hlength⟩ := words_meaning 9
    have hdistinct : (words 9).meaning ⊆ distinct (words 9).meaning :=
      fun _ h => mem_distinct.mpr h
    have hle := (subperm_of_subset hnodup hdistinct).length_le
    rw [hlength] at hle
    exact Nat.lt_of_lt_of_le (by decide) hle

/-- Nine groups that mean ten patterns are refused: the list that is built would have 512 texts. -/
theorem few_refused :
    ¬ ∀ t : PatternTree, t.groups < 128 →
      ((∃ err, expand t.text = .error err) ↔ maxExpansions < (distinct t.meaning).length) := by
  intro h
  have hgroups : stairTree.groups < 128 := by decide
  have hspread : maxExpansions < stairTree.spread := by decide
  have hfew : ¬ maxExpansions < (distinct stairTree.meaning).length := by decide
  exact hfew ((h stairTree hgroups).mp ((tree_refused_iff hgroups).mpr hspread))

end Evener.GlobPattern
