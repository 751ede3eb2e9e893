/-
  Messages over repeated compactions.

  A fold reads what the turn before it carries, and may cut some of the messages again. Cuts are
  listed by the place of the message and the size of the ends that are kept.
-/
import Evener.Contextmgr.Budgets
import Evener.Contextmgr.SummaryLayout

namespace Evener.Contextmgr

open Evener.Lib List

/-! ## Cuts -/

/-- The cuts that `trimLongest` makes. -/
def longestCuts (budget : Int) : (order : List Nat) → Fit → List (Nat × Nat)
  | [], _ => []
  | i :: rest, fit =>
    if fit.rendered ≤ budget then []
    else
      match fit.kept[i]? with
      | none => []
      | some entry =>
        let edge := (keepOf budget fit.rendered entry.text / 2).toNat
        if entry.text.length ≤ (middleTrim entry.text edge).length then longestCuts budget rest fit
        else
          (i, edge) :: longestCuts budget rest
            ⟨fit.rendered + (blockLen (entry.middle edge) - blockLen entry),
              fit.kept.set i (entry.middle edge)⟩

def fitCuts (conversation : List CheckpointConversationEntry) (budget : Int) (recoverable : Bool) :
    List (Nat × Nat) :=
  let fit := shedFit budget conversation
  if fit.rendered ≤ budget ∨ recoverable = false then []
  else longestCuts budget (longMessages fit.kept) fit

/-- The cut that `trimNewest` makes. -/
def newestCut (ceiling : Int) (newestAsWritten : Bytes) (partner : List CheckpointConversationEntry) :
    List (Nat × Nat) :=
  match partner.getLast? with
  | none => []
  | some newest =>
    let size : Int := (renderCheckpointConversation partner).length
    let edge := (newest.text.length - (size - ceiling) -
      (trimmedMessageNote newestAsWritten.length).length : Int).tdiv 2
    if (middleTrim newestAsWritten (max edge 1).toNat).length < newest.text.length then
      [(partner.length - 1, (max edge 1).toNat)]
    else []

/-- The cuts that `carriedMessages` makes. -/
def carryCuts (kept : List CheckpointConversationEntry) (recoverable : Bool) (ceiling : Int) :
    List (Nat × Nat) :=
  let budget := if 0 < ceiling then min maxCheckpointChars ceiling else maxCheckpointChars
  let newestAsWritten := (kept.getLast?.map CheckpointConversationEntry.text).getD []
  let partner := fitCheckpointConversation kept budget recoverable
  fitCuts kept budget recoverable ++
    (if 0 < ceiling ∧ ceiling < (renderCheckpointConversation partner).length then
      newestCut ceiling newestAsWritten partner
    else [])

/-- Untouched, or cut as listed. -/
def CutIn (cuts : List (Nat × Nat)) (i : Nat) (entry entry' : CheckpointConversationEntry) : Prop :=
  entry' = entry ∨ ∃ edge, (i, edge) ∈ cuts ∧
    (middleTrim entry.text edge).length < entry.text.length ∧ entry' = entry.middle edge

theorem CutIn.weaken {cuts cuts' : List (Nat × Nat)} {i : Nat}
    {entry entry' : CheckpointConversationEntry} (h : CutIn cuts i entry entry')
    (hsub : ∀ cut ∈ cuts, cut ∈ cuts') : CutIn cuts' i entry entry' := by
  rcases h with hsame | ⟨edge, hmem, hless, hcut⟩
  · exact Or.inl hsame
  · exact Or.inr ⟨edge, hsub _ hmem, hless, hcut⟩

theorem middleTrim_lt {text : Bytes} {edge : Nat} (h : (middleTrim text edge).length < text.length) :
    2 * edge < text.length := by
  by_contra hle
  rw [middleTrim_short (by omega)] at h
  omega

/-- What a trim shortens, a trim between smaller edges shortens too. -/
theorem middleTrim_shorter {text : Bytes} {edge edge' : Nat} (hle : edge ≤ edge')
    (h : (middleTrim text edge').length < text.length) :
    (middleTrim text edge).length < text.length := by
  have hlong := middleTrim_lt h
  have hhead := (cutText_mono text hle).length_le
  have htail := (tailText_mono hle (show edge' ≤ text.length by omega)).length_le
  have hends' := length_tailText_le text edge'
  rw [middleTrim_ends hlong, length_append, length_append, length_note] at h
  rw [middleTrim_ends (by omega), length_append, length_append, length_note]
  have hdigits := length_decimal_add
    (text.length - (cutText text edge').length - (tailText text edge').length)
    ((cutText text edge').length - (cutText text edge).length +
      ((tailText text edge').length - (tailText text edge).length))
  rw [show text.length - (cutText text edge').length - (tailText text edge').length +
    ((cutText text edge').length - (cutText text edge).length +
      ((tailText text edge').length - (tailText text edge).length)) =
      text.length - (cutText text edge).length - (tailText text edge).length by omega] at hdigits
  omega

theorem edge_of_longestCuts {budget : Int} {order : List Nat} {fit : Fit} {i edge : Nat}
    (h : (i, edge) ∈ longestCuts budget order fit) : i ∈ order ∧ partnerMessageEdgeChars ≤ edge := by
  induction order generalizing fit with
  | nil => exact absurd h not_mem_nil
  | cons j rest ih =>
    rw [longestCuts] at h
    split at h
    · exact absurd h not_mem_nil
    · split at h
      · exact absurd h not_mem_nil
      · next entry _ =>
        dsimp only at h
        have hkeep := keep_floor budget fit.rendered entry.text
        split at h
        · exact ⟨mem_cons_of_mem j (ih h).1, (ih h).2⟩
        · rcases mem_cons.mp h with heq | h
          · cases heq
            exact ⟨mem_cons_self, by omega⟩
          · exact ⟨mem_cons_of_mem j (ih h).1, (ih h).2⟩

theorem trimLongest_cuts {budget : Int} {order : List Nat} {fit : Fit} (hnodup : order.Nodup)
    {i : Nat} {entry : CheckpointConversationEntry} (hentry : fit.kept[i]? = some entry) :
    ∃ entry', (trimLongest budget order fit).kept[i]? = some entry' ∧
      CutIn (longestCuts budget order fit) i entry entry' ∧ (i ∉ order → entry' = entry) := by
  induction order generalizing fit entry with
  | nil => exact ⟨entry, hentry, Or.inl rfl, fun _ => rfl⟩
  | cons j rest ih =>
    rw [nodup_cons] at hnodup
    rw [trimLongest, longestCuts]
    by_cases hfits : fit.rendered ≤ budget
    · rw [if_pos hfits, if_pos hfits]
      exact ⟨entry, hentry, Or.inl rfl, fun _ => rfl⟩
    · rw [if_neg hfits, if_neg hfits]
      cases hplace : fit.kept[j]? with
      | none => exact ⟨entry, hentry, Or.inl rfl, fun _ => rfl⟩
      | some message =>
        dsimp only
        generalize (keepOf budget fit.rendered message.text / 2).toNat = edge
        by_cases hlong : message.text.length ≤ (middleTrim message.text edge).length
        · rw [if_pos hlong, if_pos hlong]
          obtain ⟨entry', hafter, hcut, hsame⟩ := ih hnodup.2 hentry
          exact ⟨entry', hafter, hcut, fun hout => hsame fun hin => hout (mem_cons_of_mem j hin)⟩
        · rw [if_neg hlong, if_neg hlong]
          change ∃ entry', (trimLongest budget rest ⟨_, fit.kept.set j (message.middle edge)⟩).kept[i]? =
            some entry' ∧ _
          by_cases hij : i = j
          · subst hij
            rw [hentry] at hplace
            cases hplace
            obtain ⟨hi, _⟩ := List.getElem?_eq_some_iff.mp hentry
            obtain ⟨entry', hafter, _, hsame⟩ := @ih
              ⟨fit.rendered + (blockLen (entry.middle edge) - blockLen entry),
                fit.kept.set i (entry.middle edge)⟩ hnodup.2 (entry.middle edge) (by
                rw [getElem?_set_self hi])
            rw [hsame hnodup.1] at hafter
            refine ⟨_, hafter, Or.inr ⟨edge, mem_cons_self, by omega, rfl⟩,
              fun hout => absurd mem_cons_self hout⟩
          · obtain ⟨entry', hafter, hcut, hsame⟩ := @ih
              ⟨fit.rendered + (blockLen (message.middle edge) - blockLen message),
                fit.kept.set j (message.middle edge)⟩ hnodup.2 entry (by
                rw [getElem?_set_ne (Ne.symm hij)]
                exact hentry)
            exact ⟨entry', hafter, hcut.weaken fun _ hmem => mem_cons_of_mem _ hmem,
              fun hout => hsame fun hin => hout (mem_cons_of_mem j hin)⟩

/-! ## The messages of a fold -/

/-- The partner's entries. -/
def ofPartner (entries : List CheckpointConversationEntry) : List CheckpointConversationEntry :=
  entries.filter fun entry => entry.role = utf8 "user"

theorem shedFit_partner {conversation : List CheckpointConversationEntry}
    (hclean : ∀ entry ∈ conversation, entry.Clean) (budget : Int) :
    ofPartner (shedFit budget conversation).kept = ofPartner conversation ∧
      (budget < (shedFit budget conversation).rendered →
        (shedFit budget conversation).kept = ofPartner conversation) := by
  obtain ⟨shed, rest, hsplit, hkept, _⟩ :=
    shedReplies_kept budget conversation (startFit conversation)
  change (shedFit budget conversation).kept = [] ++ ofPartner shed ++ rest at hkept
  have hpartner : ofPartner (shedFit budget conversation).kept = ofPartner conversation := by
    rw [hkept, hsplit]
    unfold ofPartner
    simp
  refine ⟨hpartner, fun hover => ?_⟩
  rw [← hpartner]
  exact (filter_messages (shedFit_messages budget hclean hover)).symm

/-- Fitting cuts the partner's messages as listed, and keeps their places. -/
theorem fit_cuts {conversation : List CheckpointConversationEntry}
    (hclean : ∀ entry ∈ conversation, entry.Clean) (budget : Int) (recoverable : Bool) {i : Nat}
    {entry : CheckpointConversationEntry} (hentry : (ofPartner conversation)[i]? = some entry) :
    ∃ entry', (ofPartner (fitCheckpointConversation conversation budget recoverable))[i]? =
      some entry' ∧ CutIn (fitCuts conversation budget recoverable) i entry entry' := by
  obtain ⟨hpartner, hshed⟩ := shedFit_partner hclean budget
  by_cases hstop : (shedFit budget conversation).rendered ≤ budget ∨ recoverable = false
  · rw [fit_kept budget hstop, hpartner]
    exact ⟨entry, hentry, Or.inl rfl⟩
  · have hcuts : fitCuts conversation budget recoverable =
        longestCuts budget (longMessages (shedFit budget conversation).kept)
          (shedFit budget conversation) := if_neg hstop
    rw [not_or, Bool.not_eq_false, Int.not_le] at hstop
    obtain ⟨hover, rfl⟩ := hstop
    have hmessages := shedFit_messages budget hclean hover
    have hentry' : (shedFit budget conversation).kept[i]? = some entry := by
      rw [hshed hover]
      exact hentry
    obtain ⟨entry', hafter, hcut, _⟩ :=
      @trimLongest_cuts budget _ _ (longMessages_nodup _) _ _ hentry'
    have hnil : conversation ≠ [] := by
      rintro rfl
      exact nomatch hentry
    have hrun := shedFit_trims budget hclean hnil hover (longMessages_nodup _) fun _ h => h
    rw [hcuts, fit_trimmed budget hover]
    refine ⟨entry', ?_, hcut⟩
    have hroles : ofPartner (trimLongest budget (longMessages (shedFit budget conversation).kept)
        (shedFit budget conversation)).kept = (trimLongest budget
          (longMessages (shedFit budget conversation).kept) (shedFit budget conversation)).kept := by
      refine filter_eq_self.mpr fun e he => decide_eq_true ?_
      obtain ⟨j, hj, rfl⟩ := mem_iff_getElem.mp he
      have hlt := hj
      rw [hrun.length] at hlt
      obtain ⟨after, hget, hfitted, _⟩ := hrun.fitted j _ (getElem?_eq_getElem hlt)
      rw [getElem?_eq_getElem hj] at hget
      rw [Option.some.inj hget, hfitted.role]
      exact (hmessages _ (getElem_mem hlt)).role
    rw [hroles]
    exact hafter

theorem fitCuts_fitting {conversation : List CheckpointConversationEntry} {budget : Int}
    {recoverable : Bool} (h : (renderCheckpointConversation conversation).length ≤ budget) :
    fitCuts conversation budget recoverable = [] := by
  have hshed : shedFit budget conversation = ⟨(startFit conversation).rendered, conversation⟩ :=
    shedReplies_fitting conversation h
  unfold fitCuts
  rw [hshed]
  exact if_pos (Or.inl h)

/-- Fitting cuts only over the budget, and keeps the edges of what it cuts. -/
theorem mem_fitCuts {conversation : List CheckpointConversationEntry}
    (hclean : ∀ entry ∈ conversation, entry.Clean) {budget : Int} {recoverable : Bool} {i edge : Nat}
    (h : (i, edge) ∈ fitCuts conversation budget recoverable) :
    recoverable = true ∧ budget < (renderCheckpointConversation (ofPartner conversation)).length ∧
      partnerMessageEdgeChars ≤ edge := by
  unfold fitCuts at h
  dsimp only at h
  split at h
  · exact absurd h not_mem_nil
  · next hstop =>
    rw [not_or, Bool.not_eq_false, Int.not_le] at hstop
    obtain ⟨hin, hedge⟩ := edge_of_longestCuts h
    have hkept := (shedFit_partner hclean budget).2 hstop.1
    have hne : (shedFit budget conversation).kept ≠ [] := by
      intro hnil
      have hlt := longMessages_lt hin
      rw [hnil] at hlt
      exact absurd hlt (Nat.not_lt_zero _)
    have hconversation : conversation ≠ [] := by
      rintro rfl
      exact hne rfl
    obtain ⟨hexact, hshown⟩ := shedFit_exact budget hclean hconversation
    refine ⟨hstop.2, ?_, hedge⟩
    rw [← hkept, ← hexact.render hne hshown]
    exact hstop.1

theorem CutIn.shrinks {cuts : List (Nat × Nat)} {i : Nat}
    {entry entry' : CheckpointConversationEntry} (h : CutIn cuts i entry entry') :
    entry'.text.length ≤ entry.text.length ∧ entry'.role = entry.role := by
  rcases h with rfl | ⟨edge, _, hless, rfl⟩
  · exact ⟨Nat.le_refl _, rfl⟩
  · exact ⟨Nat.le_of_lt hless, rfl⟩

theorem fit_messages {kept : List CheckpointConversationEntry}
    (hmessages : ∀ entry ∈ kept, Message entry) (budget : Int) (recoverable : Bool) :
    ofPartner (fitCheckpointConversation kept budget recoverable) =
        fitCheckpointConversation kept budget recoverable ∧
      (fitCheckpointConversation kept budget recoverable).length = kept.length := by
  have hfitted := (fit_partner hmessages budget recoverable).1
  refine ⟨filter_eq_self.mpr fun entry hentry => decide_eq_true ?_, hfitted.length_eq.symm⟩
  have hmem := mem_map_of_mem (f := CheckpointConversationEntry.role) hentry
  rw [roles_of_fitted hfitted] at hmem
  obtain ⟨message, hmessage, hrole⟩ := mem_map.mp hmem
  rw [← hrole]
  exact (hmessages message hmessage).role

/-- The carry of a summary turn cuts the messages as listed. -/
theorem carry_cuts {kept : List CheckpointConversationEntry}
    (hmessages : ∀ entry ∈ kept, Message entry) (recoverable : Bool) (ceiling : Int) {i : Nat}
    {entry : CheckpointConversationEntry} (hentry : kept[i]? = some entry) :
    ∃ entry', (carriedMessages kept recoverable ceiling)[i]? = some entry' ∧
      CutIn (carryCuts kept recoverable ceiling) i entry entry' := by
  have hall : ofPartner kept = kept := filter_messages hmessages
  unfold carriedMessages carryCuts
  dsimp only
  generalize (if 0 < ceiling then min maxCheckpointChars ceiling else maxCheckpointChars) = budget
  obtain ⟨hpartner, hlength⟩ := fit_messages hmessages budget recoverable
  obtain ⟨fitted, hfitted, hcut⟩ := fit_cuts (fun e he => (hmessages e he).clean) budget recoverable
    (by
      rw [hall]
      exact hentry)
  rw [hpartner] at hfitted
  generalize fitCheckpointConversation kept budget recoverable = partner at hfitted hlength ⊢
  by_cases hover : 0 < ceiling ∧ ceiling < (renderCheckpointConversation partner).length
  · rw [if_pos hover, if_pos hover]
    obtain ⟨hi, _⟩ := List.getElem?_eq_some_iff.mp hfitted
    have hfront : ∀ cut ∈ fitCuts kept budget recoverable, ∀ more, cut ∈
        fitCuts kept budget recoverable ++ more := fun _ hmem _ => mem_append_left _ hmem
    have hlt : partner.length - 1 < partner.length := by omega
    have hget : partner.getLast? = some partner[partner.length - 1] := by
      rw [getLast?_eq_getElem?, getElem?_eq_getElem hlt]
    unfold trimNewest newestCut
    rw [hget]
    dsimp only
    generalize (max ((partner[partner.length - 1].text.length -
      (((renderCheckpointConversation partner).length : Int) - ceiling) -
      (trimmedMessageNote ((kept.getLast?.map CheckpointConversationEntry.text).getD []).length).length :
        Int).tdiv 2) 1).toNat = edge
    split
    · next hshort =>
      by_cases hlast : i = partner.length - 1
      · have hnewest : (kept.getLast?.map CheckpointConversationEntry.text).getD [] = entry.text := by
          rw [getLast?_eq_getElem?, ← hlength, ← hlast, hentry]
          rfl
        subst hlast
        rw [getElem?_eq_getElem hi] at hfitted
        have hsame := Option.some.inj hfitted
        rw [hnewest] at hshort ⊢
        rw [hsame] at hshort ⊢
        obtain ⟨hshrinks, hrole⟩ := hcut.shrinks
        refine ⟨entry.middle edge, ?_, Or.inr ⟨edge, mem_append_right _ mem_cons_self,
          by omega, rfl⟩⟩
        rw [getElem?_append_right (by simp), length_dropLast, Nat.sub_self]
        unfold CheckpointConversationEntry.middle
        rw [← hrole]
        rfl
      · refine ⟨fitted, ?_, hcut.weaken fun cut hmem => hfront cut hmem _⟩
        rw [getElem?_append_left (by
          rw [length_dropLast]
          omega), getElem?_dropLast, if_pos (by omega)]
        exact hfitted
    · exact ⟨fitted, hfitted, hcut.weaken fun cut hmem => hfront cut hmem _⟩
  · rw [if_neg hover, if_neg hover, append_nil]
    exact ⟨fitted, hfitted, hcut⟩

/-- The ends that the ceiling leaves to a message alone. -/
def ceilingEdge (ceiling : Int) (text : Bytes) : Nat :=
  let size : Int := (renderCheckpointConversation [⟨utf8 "user", text⟩]).length
  (max ((text.length - (size - ceiling) - (trimmedMessageNote text.length).length : Int).tdiv 2) 1).toNat

theorem edge_of_newestCut {ceiling : Int} {written : CheckpointConversationEntry}
    (h : Message written) {fitted : CheckpointConversationEntry} (hfitted : Fitted written fitted)
    {i edge : Nat} (hcut : (i, edge) ∈ newestCut ceiling written.text [fitted]) :
    ceilingEdge ceiling written.text ≤ edge := by
  have hsize : (renderCheckpointConversation [fitted]).length + written.text.length ≤
      (renderCheckpointConversation [written]).length + fitted.text.length := by
    rcases hfitted with rfl | ⟨_, cut, _, _, rfl⟩
    · exact Nat.le_refl _
    · have hmiddle := h.size_middle cut
      rw [length_render_shown (by simp) (by simpa using h.shown_middle cut),
        length_render_shown (by simp) (by simpa using h.shown)]
      simp only [map_cons, map_nil, sum_cons, sum_nil]
      change _ ≤ _ + (middleTrim written.text cut).length
      omega
  unfold newestCut at hcut
  simp only [getLast?_singleton] at hcut
  split at hcut
  · cases mem_singleton.mp hcut
    unfold ceilingEdge
    rw [← h.eq]
    dsimp only
    have hroom := Int.tdiv_le_tdiv (show (0 : Int) < 2 by decide)
      (show (written.text.length - ((renderCheckpointConversation [written]).length - ceiling) -
        (trimmedMessageNote written.text.length).length : Int) ≤ fitted.text.length -
        ((renderCheckpointConversation [fitted]).length - ceiling) -
        (trimmedMessageNote written.text.length).length by omega)
    omega
  · exact absurd hcut not_mem_nil

/-- A carry cuts only over its budget, or what is over the ceiling alone. -/
theorem mem_carryCuts {kept : List CheckpointConversationEntry}
    (hmessages : ∀ entry ∈ kept, Message entry) {recoverable : Bool} {ceiling : Int} {i edge : Nat}
    (h : (i, edge) ∈ carryCuts kept recoverable ceiling) :
    (recoverable = true ∧ (if 0 < ceiling then min maxCheckpointChars ceiling
        else maxCheckpointChars) < (renderCheckpointConversation kept).length ∧
      partnerMessageEdgeChars ≤ edge) ∨
    0 < ceiling ∧ ceiling < (renderCheckpointConversation kept).length ∧
      ∀ newest, kept = [newest] → ceilingEdge ceiling newest.text ≤ edge := by
  have hall : ofPartner kept = kept := filter_messages hmessages
  unfold carryCuts at h
  generalize (if 0 < ceiling then min maxCheckpointChars ceiling else maxCheckpointChars) = budget
    at h ⊢
  obtain ⟨hfitted, hshown, _⟩ := fit_partner hmessages budget recoverable
  have hless := render_fitted_le hfitted hmessages hshown
  rcases mem_append.mp h with h | h
  · have hcut := mem_fitCuts (fun e he => (hmessages e he).clean) h
    rw [hall] at hcut
    exact Or.inl hcut
  · split at h
    · next hover =>
      refine Or.inr ⟨hover.1, by omega, ?_⟩
      rintro newest rfl
      generalize fitCheckpointConversation [newest] budget recoverable = fitted at hfitted h
      cases hfitted with
      | cons hpair hnil =>
        cases hnil
        exact edge_of_newestCut (hmessages newest mem_cons_self) hpair h
    · exact absurd h not_mem_nil

end Evener.Contextmgr
