/-
  `$` expressions in config values: the one scan, what is read off it, and expansion.

  Looking up a variable and running a command act on a world.
-/
import Mathlib.Data.List.TakeWhile
import Evener.Lib.ByteText

namespace Evener.Valueexpr

open Evener.Lib
open List hiding lookup

def dollar : UInt8 := 36
def openBrace : UInt8 := 123
def closeBrace : UInt8 := 125
def openParen : UInt8 := 40
def closeParen : UInt8 := 41
def colon : UInt8 := 58
def dash : UInt8 := 45

def isEnvNameStart (c : UInt8) : Bool := c = 95 || (65 ≤ c && c ≤ 90) || (97 ≤ c && c ≤ 122)

def isEnvNameByte (c : UInt8) : Bool := isEnvNameStart c || (48 ≤ c && c ≤ 57)

def validEnvName (name : Bytes) : Bool :=
  match name with
  | [] => false
  | c :: rest => isEnvNameStart c && rest.all isEnvNameByte

inductive SyntaxError where
  | unterminatedReference
  | invalidName
  | emptyCommand
  | unterminatedCommand
deriving DecidableEq

/-- `default` is the default text, if one is written. -/
structure Ref where
  name : Bytes
  default : Option Bytes
deriving DecidableEq

inductive Piece where
  | lit (text : Bytes)
  | ref (r : Ref)
  | command (command : Bytes)
deriving DecidableEq

/-! ## Scanning -/

/-- The text up to the parenthesis that brings the depth back to zero; `depth` parentheses are open
beside the first one. -/
def cutCommand : Nat → Bytes → Option (Bytes × Bytes)
  | _, [] => none
  | depth, c :: rest =>
    if c = openParen then (cutCommand (depth + 1) rest).map fun (command, after) => (c :: command, after)
    else if c = closeParen then
      match depth with
      | 0 => some ([], rest)
      | depth + 1 => (cutCommand depth rest).map fun (command, after) => (c :: command, after)
    else (cutCommand depth rest).map fun (command, after) => (c :: command, after)

def readReference (expr : Bytes) : Except SyntaxError Piece :=
  let (name, default) :=
    match cutBytes [colon, dash] expr with
    | some (name, default) => (name, some default)
    | none => (expr, none)
  if validEnvName name then .ok (.ref ⟨name, default⟩) else .error .invalidName

/-- The first piece of a value that begins with a dollar sign, and what is behind it. -/
def dollarPiece (after : Bytes) : Except SyntaxError (Piece × Bytes) :=
  match after with
  | [] => .ok (.lit [dollar], [])
  | next :: rest =>
    if next = dollar then .ok (.lit [dollar], rest)
    else if next = openBrace then
      match cutBytes [closeBrace] rest with
      | none => .error .unterminatedReference
      | some (expr, rest) => (readReference expr).map fun piece => (piece, rest)
    else if next = openParen then
      match cutCommand 0 rest with
      | none => .error .unterminatedCommand
      | some (command, rest) =>
        if command = [] then .error .emptyCommand else .ok (.command command, rest)
    else if isEnvNameStart next then
      .ok (.ref ⟨after.takeWhile isEnvNameByte, none⟩, after.dropWhile isEnvNameByte)
    else .ok (.lit [dollar], after)

def firstPiece (c : UInt8) (rest : Bytes) : Except SyntaxError (Piece × Bytes) :=
  if c = dollar then dollarPiece rest
  else .ok (.lit ((c :: rest).takeWhile (· ≠ dollar)), (c :: rest).dropWhile (· ≠ dollar))

theorem cutBytes_length {sep text before after : Bytes}
    (h : cutBytes sep text = some (before, after)) : after.length ≤ text.length := by
  induction text generalizing before with
  | nil =>
    unfold cutBytes at h
    split at h
    · cases h
      exact Nat.le_refl _
    · cases h
  | cons b rest ih =>
    unfold cutBytes at h
    split at h
    · cases h
      rw [length_drop]
      exact Nat.sub_le _ _
    · obtain ⟨⟨front, behind⟩, hcut, heq⟩ := Option.map_eq_some_iff.mp h
      cases heq
      exact Nat.le_succ_of_le (ih hcut)

theorem cutCommand_length {depth : Nat} {text command after : Bytes}
    (h : cutCommand depth text = some (command, after)) : after.length ≤ text.length := by
  induction text generalizing depth command with
  | nil => cases h
  | cons c rest ih =>
    have hmap {depth : Nat} (h : (cutCommand depth rest).map (fun (command, after) =>
        (c :: command, after)) = some (command, after)) : after.length ≤ (c :: rest).length := by
      obtain ⟨⟨front, behind⟩, hcut, heq⟩ := Option.map_eq_some_iff.mp h
      cases heq
      exact Nat.le_succ_of_le (ih hcut)
    unfold cutCommand at h
    split at h
    · exact hmap h
    · split at h
      · cases depth with
        | zero =>
          cases h
          exact Nat.le_succ _
        | succ depth => exact hmap h
      · exact hmap h

theorem dollarPiece_length {after rest : Bytes} {piece : Piece}
    (h : dollarPiece after = .ok (piece, rest)) : rest.length ≤ after.length := by
  unfold dollarPiece at h
  cases after with
  | nil =>
    cases h
    exact Nat.le_refl _
  | cons next behind =>
    dsimp only at h
    split at h
    · cases h
      exact Nat.le_succ _
    · split at h
      · split at h
        · cases h
        · next expr rest' hcut =>
          cases href : readReference expr with
          | error err =>
            rw [href] at h
            cases h
          | ok piece' =>
            rw [href] at h
            cases h
            exact Nat.le_succ_of_le (cutBytes_length hcut)
      · split at h
        · split at h
          · cases h
          · next command rest' hcut =>
            split at h
            · cases h
            · cases h
              exact Nat.le_succ_of_le (cutCommand_length hcut)
        · split at h
          · cases h
            exact (dropWhile_suffix _).length_le
          · cases h
            exact Nat.le_refl _

theorem firstPiece_length {c : UInt8} {rest behind : Bytes} {piece : Piece}
    (h : firstPiece c rest = .ok (piece, behind)) : behind.length < (c :: rest).length := by
  unfold firstPiece at h
  split at h
  · exact Nat.lt_succ_of_le (dollarPiece_length h)
  · next hc =>
    cases h
    rw [dropWhile_cons_of_pos (by simpa using hc)]
    exact Nat.lt_succ_of_le (dropWhile_suffix _).length_le

/-- The pieces up to a syntax error, and the error. -/
def scan : Bytes → List Piece × Option SyntaxError
  | [] => ([], none)
  | c :: rest =>
    match h : firstPiece c rest with
    | .error err => ([], some err)
    | .ok (piece, behind) =>
      have := firstPiece_length h
      (piece :: (scan behind).1, (scan behind).2)
termination_by value => value.length
decreasing_by exact this

def pieces (value : Bytes) : Except SyntaxError (List Piece) :=
  match scan value with
  | (_, some err) => .error err
  | (out, none) => .ok out

structure Inventory where
  refs : List Ref := []
  commands : List Bytes := []
  literal : Bytes := []
deriving DecidableEq

def Piece.literal : Piece → Bytes
  | .lit text => text
  | _ => []

def Piece.ref? : Piece → Option Ref
  | .ref r => some r
  | _ => none

def Piece.command? : Piece → Option Bytes
  | .command c => some c
  | _ => none

/-- What a list of pieces flattens to. -/
def inventoryOf (ps : List Piece) : Inventory :=
  ⟨ps.filterMap Piece.ref?, ps.filterMap Piece.command?, ps.flatMap Piece.literal⟩

/-- `Scan`. -/
def scanInventory (value : Bytes) : Inventory × Option SyntaxError :=
  if dollar ∉ value then ({ literal := value }, none)
  else (inventoryOf (scan value).1, (scan value).2)

/-! ## Expansion -/

section Expand

variable {σ ε : Type}

inductive Unresolved (ε : Type) where
  | variable (name : Bytes)
  | command (command : Bytes) (err : ε)

/-- The outside that an expansion asks. -/
structure Outside (σ ε : Type) where
  lookup : Bytes → σ → Option Bytes × σ
  evaluate : Bytes → σ → Except ε Bytes × σ

/-- The loop over the pieces, with the text and the unresolved pieces so far. -/
def expandPieces (out : Outside σ ε) : List Piece → Bytes → List (Unresolved ε) → σ →
    (Bytes × List (Unresolved ε)) × σ
  | [], b, unresolved, world => ((b, unresolved), world)
  | .lit text :: ps, b, unresolved, world => expandPieces out ps (b ++ text) unresolved world
  | .ref r :: ps, b, unresolved, world =>
    let (found, world) := out.lookup r.name world
    if found.getD [] ≠ [] then expandPieces out ps (b ++ found.getD []) unresolved world
    else
      match r.default with
      | some default => expandPieces out ps (b ++ default) unresolved world
      | none => expandPieces out ps b (unresolved ++ [.variable r.name]) world
  | .command c :: ps, b, unresolved, world =>
    match out.evaluate c world with
    | (.error err, world) => expandPieces out ps b (unresolved ++ [.command c err]) world
    | (.ok value, world) => expandPieces out ps (b ++ value) unresolved world

def expand (out : Outside σ ε) (value : Bytes) (world : σ) :
    Except SyntaxError (Bytes × List (Unresolved ε)) × σ :=
  if dollar ∉ value then (.ok (value, []), world)
  else
    match pieces value with
    | .error err => (.error err, world)
    | .ok ps =>
      let (expanded, world) := expandPieces out ps [] [] world
      (.ok expanded, world)

/-- What stands for one piece, and what it leaves unresolved. -/
def substitution (out : Outside σ ε) (world : σ) : Piece → (Bytes × Option (Unresolved ε)) × σ
  | .lit text => ((text, none), world)
  | .ref r =>
    ((match (out.lookup r.name world).1, r.default with
      | some (c :: value), _ => (c :: value, none)
      | _, some default => (default, none)
      | _, none => ([], some (.variable r.name))), (out.lookup r.name world).2)
  | .command c =>
    ((match (out.evaluate c world).1 with
      | .ok value => (value, none)
      | .error err => ([], some (.command c err))), (out.evaluate c world).2)

/-- The pieces' own substitutions, in order. -/
def substitutions (out : Outside σ ε) : σ → List Piece → List (Bytes × Option (Unresolved ε)) × σ
  | world, [] => ([], world)
  | world, p :: ps =>
    ((substitution out world p).1 :: (substitutions out (substitution out world p).2 ps).1,
      (substitutions out (substitution out world p).2 ps).2)

end Expand

/-! ## Writing pieces -/

def Piece.text : Piece → Bytes
  | .lit text => text.flatMap fun c => if c = dollar then [dollar, dollar] else [c]
  | .ref r =>
    dollar :: openBrace :: (r.name ++ (r.default.elim [] (colon :: dash :: ·)) ++ [closeBrace])
  | .command c => dollar :: openParen :: (c ++ [closeParen])

/-- The pieces as a value. -/
def written (ps : List Piece) : Bytes := ps.flatMap Piece.text

/-- Parentheses are balanced, and no beginning closes more than it opens. -/
def Balanced (command : Bytes) : Prop :=
  command.count openParen = command.count closeParen ∧
    ∀ front, front <+: command → front.count closeParen ≤ front.count openParen

def Piece.Writable : Piece → Prop
  | .lit _ => True
  | .ref r => validEnvName r.name = true ∧ ∀ default, r.default = some default → closeBrace ∉ default
  | .command c => c ≠ [] ∧ Balanced c

/-- Text in front of pieces joins a literal there. -/
def prependLit (text : Bytes) : List Piece → List Piece
  | .lit next :: ps => .lit (text ++ next) :: ps
  | ps => if text = [] then ps else .lit text :: ps

/-- Adjacent literals are joined, and empty ones are dropped. -/
def joined : List Piece → List Piece
  | [] => []
  | .lit text :: ps => prependLit text (joined ps)
  | p :: ps => p :: joined ps

/-! ## Joined literals -/

theorem prependLit_nil (ps : List Piece) : prependLit [] ps = ps := by
  unfold prependLit
  split
  · rfl
  · rfl

theorem prependLit_append (a b : Bytes) (ps : List Piece) :
    prependLit (a ++ b) ps = prependLit a (prependLit b ps) := by
  by_cases hb : b = []
  · rw [hb, append_nil, prependLit_nil]
  · cases ps with
    | nil => simp [prependLit, hb]
    | cons p ps => cases p <;> simp [prependLit, hb]

theorem inventoryOf_prependLit (text : Bytes) (ps : List Piece) :
    inventoryOf (prependLit text ps) = inventoryOf (.lit text :: ps) := by
  unfold prependLit
  split
  · simp [inventoryOf, Piece.ref?, Piece.command?, Piece.literal, filterMap_cons]
  · split
    · next htext =>
      simp [inventoryOf, Piece.ref?, Piece.command?, Piece.literal, filterMap_cons, htext]
    · rfl

/-- Joining literals changes nothing of the inventory. -/
theorem inventoryOf_joined (ps : List Piece) : inventoryOf (joined ps) = inventoryOf ps := by
  induction ps with
  | nil => rfl
  | cons p ps ih =>
    have hcons (p : Piece) : inventoryOf (p :: joined ps) = inventoryOf (p :: ps) := by
      unfold inventoryOf at ih ⊢
      simp only [Inventory.mk.injEq, filterMap_cons, flatMap_cons] at ih ⊢
      rw [ih.1, ih.2.1, ih.2.2]
      exact ⟨rfl, rfl, rfl⟩
    cases p with
    | lit text => exact (inventoryOf_prependLit text _).trans (hcons _)
    | ref r => exact hcons _
    | command c => exact hcons _

/-! ## Scanning what was written -/

theorem scan_ok {c : UInt8} {rest behind : Bytes} {piece : Piece}
    (h : firstPiece c rest = .ok (piece, behind)) :
    scan (c :: rest) = (piece :: (scan behind).1, (scan behind).2) := by
  rw [scan]
  split
  · next err herr =>
    rw [h] at herr
    cases herr
  · next piece' behind' hok =>
    rw [h] at hok
    cases hok
    rfl

def joinedScan (value : Bytes) : List Piece × Option SyntaxError :=
  (joined (scan value).1, (scan value).2)

/-- A literal run is scanned as one piece. -/
theorem joinedScan_run (value : Bytes) :
    joinedScan value = (prependLit (value.takeWhile (· ≠ dollar))
      (joinedScan (value.dropWhile (· ≠ dollar))).1,
      (joinedScan (value.dropWhile (· ≠ dollar))).2) := by
  cases value with
  | nil =>
    rw [takeWhile_nil, dropWhile_nil, prependLit_nil]
  | cons c rest =>
    by_cases hc : c = dollar
    · subst hc
      rw [takeWhile_cons_of_neg (by simp), dropWhile_cons_of_neg (by simp),
        prependLit_nil]
    · have hfirst : firstPiece c rest = .ok (.lit ((c :: rest).takeWhile (· ≠ dollar)),
          (c :: rest).dropWhile (· ≠ dollar)) := if_neg hc
      unfold joinedScan
      rw [scan_ok hfirst]
      rfl

theorem joinedScan_plain {c : UInt8} (hc : c ≠ dollar) (value : Bytes) :
    joinedScan (c :: value) = (prependLit [c] (joinedScan value).1, (joinedScan value).2) := by
  rw [joinedScan_run (c :: value), joinedScan_run value, takeWhile_cons_of_pos (by simpa),
    dropWhile_cons_of_pos (by simpa), ← prependLit_append]
  rfl

theorem joinedScan_dollars (value : Bytes) :
    joinedScan (dollar :: dollar :: value) =
      (prependLit [dollar] (joinedScan value).1, (joinedScan value).2) := by
  have hfirst : firstPiece dollar (dollar :: value) = .ok (.lit [dollar], value) := rfl
  unfold joinedScan
  rw [scan_ok hfirst]
  rfl

theorem joinedScan_lit (text value : Bytes) :
    joinedScan ((Piece.lit text).text ++ value) =
      (prependLit text (joinedScan value).1, (joinedScan value).2) := by
  unfold Piece.text
  dsimp only
  induction text with
  | nil =>
    rw [prependLit_nil]
    rfl
  | cons c text ih =>
    rw [flatMap_cons, append_assoc, show c :: text = [c] ++ text from rfl,
      prependLit_append]
    by_cases hc : c = dollar
    · subst hc
      rw [if_pos rfl]
      refine (joinedScan_dollars _).trans ?_
      exact congrArg (fun r : List Piece × Option SyntaxError => (prependLit _ r.1, r.2)) ih
    · rw [if_neg hc]
      refine (joinedScan_plain hc _).trans ?_
      exact congrArg (fun r : List Piece × Option SyntaxError => (prependLit _ r.1, r.2)) ih

theorem validEnvName_free {name : Bytes} (h : validEnvName name = true) {c : UInt8}
    (hc : isEnvNameByte c = false) : c ∉ name := by
  cases name with
  | nil => exact not_mem_nil
  | cons b rest =>
    unfold validEnvName at h
    rw [Bool.and_eq_true, all_eq_true] at h
    intro hmem
    rcases mem_cons.mp hmem with rfl | hmem
    · unfold isEnvNameByte at hc
      rw [h.1] at hc
      cases hc
    · rw [h.2 c hmem] at hc
      cases hc

theorem cutBytes_default {name : Bytes} (h : colon ∉ name) (default : Bytes) :
    cutBytes [colon, dash] (name ++ colon :: dash :: default) = some (name, default) := by
  induction name with
  | nil =>
    rw [nil_append, cutBytes, if_pos (by simp)]
    rfl
  | cons b rest ih =>
    rw [mem_cons, not_or] at h
    have hpre : ¬[colon, dash].isPrefixOf (b :: (rest ++ colon :: dash :: default)) = true := by
      rw [ isPrefixOf_iff_prefix, cons_prefix_cons]
      exact fun hpre => h.1 hpre.1
    rw [cons_append, cutBytes, if_neg hpre, ih h.2]
    rfl

theorem readReference_written {r : Ref} (h : validEnvName r.name = true) :
    readReference (r.name ++ r.default.elim [] (colon :: dash :: ·)) = .ok (.ref r) := by
  have hcolon : colon ∉ r.name := validEnvName_free h rfl
  obtain ⟨name, default⟩ := r
  unfold readReference
  cases default with
  | none =>
    dsimp only [Option.elim]
    rw [append_nil, cutBytes_none hcolon]
    exact if_pos h
  | some default =>
    dsimp only [Option.elim]
    rw [cutBytes_default hcolon]
    exact if_pos h

theorem joinedScan_ref {r : Ref} (h : (Piece.ref r).Writable) (value : Bytes) :
    joinedScan ((Piece.ref r).text ++ value) =
      (.ref r :: (joinedScan value).1, (joinedScan value).2) := by
  have hbrace : closeBrace ∉ r.name ++ r.default.elim [] (colon :: dash :: ·) := by
    rw [mem_append, not_or]
    refine ⟨validEnvName_free h.1 rfl, ?_⟩
    cases hdefault : r.default with
    | none => exact not_mem_nil
    | some default =>
      have hfree := h.2 default hdefault
      simpa [closeBrace, colon, dash] using hfree
  have hfirst : firstPiece dollar (openBrace ::
      ((r.name ++ r.default.elim [] (colon :: dash :: ·)) ++ closeBrace :: value)) =
        .ok (.ref r, value) := by
    show (match cutBytes [closeBrace] _ with
      | none => Except.error SyntaxError.unterminatedReference
      | some (expr, rest) => (readReference expr).map fun piece => (piece, rest)) = _
    rw [cutBytes_first hbrace]
    dsimp only
    rw [readReference_written h.1]
    rfl
  have htext : (Piece.ref r).text ++ value = dollar :: openBrace ::
      ((r.name ++ r.default.elim [] (colon :: dash :: ·)) ++ closeBrace :: value) := by
    simp [Piece.text]
  unfold joinedScan
  rw [htext, scan_ok hfirst]
  rfl

/-- Behind `depth` open parentheses, the command is cut at its own end. -/
theorem cutCommand_balanced {depth : Nat} {command : Bytes} (rest : Bytes)
    (hcount : command.count openParen + depth = command.count closeParen)
    (hfront : ∀ front, front <+: command →
      front.count closeParen ≤ depth + front.count openParen) :
    cutCommand depth (command ++ closeParen :: rest) = some (command, rest) := by
  induction command generalizing depth with
  | nil =>
    have hdepth : depth = 0 := by simpa using hcount
    rw [hdepth]
    rfl
  | cons c command ih =>
    have htail (front : Bytes) (h : front <+: command) :=
      hfront (c :: front) ((prefix_cons_inj c).mpr h)
    simp only [count_cons] at hcount htail
    rw [cons_append, cutCommand.eq_def]
    dsimp only
    by_cases hopen : c = openParen
    · subst hopen
      have hne : (openParen == closeParen) = false := rfl
      simp only [hne, beq_self_eq_true, if_true] at hcount htail
      rw [if_pos rfl, ih (by simp at hcount; omega) fun front h => by
        have := htail front h
        simp at this
        omega]
      rfl
    · by_cases hclose : c = closeParen
      · subst hclose
        have hone := hfront [closeParen] ⟨command, rfl⟩
        have hne : (closeParen == openParen) = false := rfl
        simp only [hne, beq_self_eq_true, if_true] at hcount htail
        cases depth with
        | zero => simp [openParen, closeParen] at hone
        | succ depth =>
          rw [if_neg hopen, if_pos rfl]
          dsimp only
          rw [ih (by simp at hcount; omega) fun front h => by
            have := htail front h
            simp at this
            omega]
          rfl
      · have hne : (c == openParen) = false := beq_false_of_ne hopen
        have hne' : (c == closeParen) = false := beq_false_of_ne hclose
        simp only [hne, hne'] at hcount htail
        rw [if_neg hopen, if_neg hclose, ih (by simpa using hcount) fun front h => by
          simpa using htail front h]
        rfl

theorem joinedScan_command {c : Bytes} (h : (Piece.command c).Writable) (value : Bytes) :
    joinedScan ((Piece.command c).text ++ value) =
      (.command c :: (joinedScan value).1, (joinedScan value).2) := by
  obtain ⟨hne, hcount, hfront⟩ := h
  have hfirst : firstPiece dollar (openParen :: (c ++ closeParen :: value)) =
      .ok (.command c, value) := by
    show (match cutCommand 0 _ with
      | none => Except.error SyntaxError.unterminatedCommand
      | some (command, rest) =>
        if command = [] then Except.error SyntaxError.emptyCommand
        else .ok (Piece.command command, rest)) = _
    rw [cutCommand_balanced value hcount fun front h => by simpa using hfront front h]
    exact if_neg hne
  have htext : (Piece.command c).text ++ value =
      dollar :: openParen :: (c ++ closeParen :: value) := by
    simp [Piece.text]
  unfold joinedScan
  rw [htext, scan_ok hfirst]
  rfl

theorem joinedScan_written {ps : List Piece} (h : ∀ p ∈ ps, p.Writable) :
    joinedScan (written ps) = (joined ps, none) := by
  induction ps with
  | nil =>
    unfold joinedScan written
    rw [flatMap_nil, scan]
  | cons p ps ih =>
    have hrest := ih fun q hq => h q (mem_cons_of_mem _ hq)
    have hp := h p mem_cons_self
    unfold written at hrest ⊢
    rw [flatMap_cons]
    cases p with
    | lit text =>
      rw [joinedScan_lit, hrest]
      rfl
    | ref r =>
      rw [joinedScan_ref hp, hrest]
      rfl
    | command c =>
      rw [joinedScan_command hp, hrest]
      rfl

/-! ## Inventory and expansion -/

theorem scan_plain {value : Bytes} (h : dollar ∉ value) :
    scan value = (if value = [] then [] else [.lit value], none) := by
  cases value with
  | nil =>
    rw [scan]
    rfl
  | cons c rest =>
    have hall : ∀ b ∈ c :: rest, (decide (b ≠ dollar)) = true := by
      intro b hb
      rw [decide_eq_true_eq]
      rintro rfl
      exact h hb
    have hc : c ≠ dollar := by simpa using hall c mem_cons_self
    have hfirst : firstPiece c rest = .ok (.lit (c :: rest), []) := by
      unfold firstPiece
      rw [if_neg hc, takeWhile_eq_self_iff.mpr hall, dropWhile_eq_nil_iff.mpr hall]
    rw [scan_ok hfirst, scan, if_neg (cons_ne_nil c rest)]

theorem scanInventory_eq (value : Bytes) :
    scanInventory value = (inventoryOf (scan value).1, (scan value).2) := by
  unfold scanInventory
  split
  · next h =>
    rw [scan_plain h]
    by_cases hnil : value = []
    · subst hnil
      rfl
    · rw [if_neg hnil]
      simp [inventoryOf, Piece.ref?, Piece.command?, Piece.literal]
  · rfl

section Expand

variable {σ ε : Type} (out : Outside σ ε)

theorem expandPieces_eq (ps : List Piece) (b : Bytes) (unresolved : List (Unresolved ε)) (world : σ) :
    expandPieces out ps b unresolved world =
      ((b ++ (substitutions out world ps).1.flatMap Prod.fst,
        unresolved ++ (substitutions out world ps).1.filterMap Prod.snd),
        (substitutions out world ps).2) := by
  induction ps generalizing b unresolved world with
  | nil => simp [expandPieces, substitutions]
  | cons p ps ih =>
    cases p with
    | lit text => simp [expandPieces, substitutions, substitution, ih]
    | ref r =>
      unfold expandPieces substitutions substitution
      dsimp only
      cases (out.lookup r.name world).1 with
      | none => cases r.default <;> simp [ih]
      | some value =>
        cases value with
        | nil => cases r.default <;> simp [ih]
        | cons c value => simp [ih]
    | command c =>
      unfold expandPieces substitutions substitution
      dsimp only
      rcases out.evaluate c world with ⟨err | value, world'⟩
      · simp [ih]
      · simp [ih]

/-- An expansion is the pieces' own substitutions, or the syntax error and nothing done. -/
theorem expand_eq (value : Bytes) (world : σ) :
    expand out value world =
      match pieces value with
      | .error err => (.error err, world)
      | .ok ps => (.ok ((substitutions out world ps).1.flatMap Prod.fst,
          (substitutions out world ps).1.filterMap Prod.snd), (substitutions out world ps).2) := by
  unfold expand
  split
  · next h =>
    unfold pieces
    rw [scan_plain h]
    by_cases hnil : value = []
    · subst hnil
      rfl
    · rw [if_neg hnil]
      simp [substitutions, substitution]
  · cases pieces value with
    | error err => rfl
    | ok ps =>
      dsimp only
      rw [expandPieces_eq]
      rfl

end Expand

theorem pieces_written {ps : List Piece} (h : ∀ p ∈ ps, p.Writable) :
    ∃ qs, pieces (written ps) = .ok qs ∧ joined qs = joined ps ∧
      scanInventory (written ps) = (inventoryOf ps, none) := by
  have hscan := joinedScan_written h
  unfold joinedScan at hscan
  obtain ⟨hpieces, hnone⟩ := Prod.mk.inj hscan
  refine ⟨(scan (written ps)).1, ?_, hpieces, ?_⟩
  · unfold pieces
    rw [show scan (written ps) = ((scan (written ps)).1, none) from Prod.ext rfl hnone]
  · rw [scanInventory_eq, hnone, ← inventoryOf_joined, hpieces, inventoryOf_joined]

/-- Values parse back what they print, and expand to what their pieces stand for. -/
theorem values_parse_back :
    (∀ ps : List Piece, (∀ p ∈ ps, p.Writable) →
      ∃ qs, pieces (written ps) = .ok qs ∧ joined qs = joined ps ∧
        scanInventory (written ps) = (inventoryOf ps, none)) ∧
    ∀ (σ ε : Type) (out : Outside σ ε) (value : Bytes) (world : σ),
      expand out value world =
        match pieces value with
        | .error err => (.error err, world)
        | .ok ps => (.ok ((substitutions out world ps).1.flatMap Prod.fst,
            (substitutions out world ps).1.filterMap Prod.snd), (substitutions out world ps).2) :=
  ⟨fun _ h => pieces_written h, fun _ _ out => expand_eq out⟩

/-- `a$` and `${B:-c}`. -/
theorem values_parse_back_default :
    ∃ qs, pieces (written [.lit [97, 36], .ref ⟨[66], some [99]⟩]) = .ok qs ∧
      joined qs = joined [.lit [97, 36], .ref ⟨[66], some [99]⟩] ∧
      scanInventory (written [.lit [97, 36], .ref ⟨[66], some [99]⟩]) =
        (inventoryOf [.lit [97, 36], .ref ⟨[66], some [99]⟩], none) := by
  refine values_parse_back.1 _ ?_
  intro p hp
  rcases mem_cons.mp hp with rfl | hp
  · exact trivial
  · obtain rfl := mem_singleton.mp hp
    refine ⟨by decide, ?_⟩
    rintro default ⟨⟩
    decide

end Evener.Valueexpr
