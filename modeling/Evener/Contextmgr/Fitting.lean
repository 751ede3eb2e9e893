/-
  Fitting a conversation into a budget: the running length is the true one, and only replies are
  shed.

  Trimming goes through distinct places, so every message is cut from the text it had before
  (`trimLongest_at`).
-/
import Evener.Contextmgr.CarryLengths

namespace Evener.Contextmgr

open Evener.Lib List

/-! ## Shedding -/

/-- The running length counts the heading and the entries that are kept or still to come. -/
def Fit.Exact (fit : Fit) (rest : List CheckpointConversationEntry) : Prop :=
  fit.rendered = 17 + (((fit.kept ++ rest).map entrySize).sum : Nat)

theorem startFit_exact {conversation : List CheckpointConversationEntry} (hne : conversation ≠ [])
    (h : ∀ entry ∈ conversation, Shown entry) : (startFit conversation).Exact conversation := by
  unfold startFit Fit.Exact
  rw [nil_append, length_render_shown hne h]
  simp

theorem shedReplies_exact {budget : Int} {processed : List CheckpointConversationEntry} {fit : Fit}
    (rest : List CheckpointConversationEntry) (h : ∀ entry ∈ processed, Shown entry)
    (hfit : fit.Exact (processed ++ rest)) : (shedReplies budget processed fit).Exact rest := by
  induction processed generalizing fit with
  | nil => exact hfit
  | cons entry processed ih =>
    have hshown := fun e he => h e (mem_cons_of_mem entry he)
    rw [shedReplies]
    split
    · refine ih hshown ?_
      unfold Fit.Exact at hfit ⊢
      rw [hfit, blockLen_eq (h entry mem_cons_self)]
      simp only [map_append, map_cons, sum_append, sum_cons, cons_append]
      omega
    · refine ih hshown ?_
      unfold Fit.Exact at hfit ⊢
      rwa [append_assoc, singleton_append, ← cons_append]

variable {fit : Fit} {entry : CheckpointConversationEntry}

/-- What fits is kept. -/
theorem shedReplies_fitting {budget : Int} (conversation : List CheckpointConversationEntry)
    (h : fit.rendered ≤ budget) :
    shedReplies budget conversation fit = ⟨fit.rendered, fit.kept ++ conversation⟩ := by
  induction conversation generalizing fit with
  | nil => simp [shedReplies]
  | cons entry conversation ih =>
    have hrest := @ih ⟨fit.rendered, fit.kept ++ [entry]⟩ h
    rw [shedReplies, if_neg (fun hshed => absurd hshed.1 (by omega)), hrest]
    simp

/-- The replies in front of some place are shed and no others; all of them, if the rest does not
    fit. -/
theorem shedReplies_kept (budget : Int) (conversation : List CheckpointConversationEntry) (fit : Fit) :
    ∃ shed rest, conversation = shed ++ rest ∧
      (shedReplies budget conversation fit).kept =
        fit.kept ++ (shed.filter fun entry => entry.role = utf8 "user") ++ rest ∧
      (budget < (shedReplies budget conversation fit).rendered → rest = []) := by
  induction conversation generalizing fit with
  | nil => exact ⟨[], [], rfl, by simp [shedReplies], fun _ => rfl⟩
  | cons entry conversation ih =>
    by_cases hfits : fit.rendered ≤ budget
    · refine ⟨[], entry :: conversation, rfl, ?_, fun hover => ?_⟩
      · rw [shedReplies_fitting _ hfits]
        simp
      · rw [shedReplies_fitting _ hfits] at hover
        dsimp only at hover
        omega
    · rw [shedReplies]
      split
      · next hshed =>
        obtain ⟨shed, rest, rfl, hkept, hover⟩ :=
          ih { fit with rendered := fit.rendered - blockLen entry }
        refine ⟨entry :: shed, rest, rfl, ?_, hover⟩
        rw [hkept, filter_cons_of_neg (by simpa using hshed.2)]
      · next hkeeps =>
        have huser : entry.role = utf8 "user" := by
          by_contra hother
          exact hkeeps ⟨by omega, hother⟩
        obtain ⟨shed, rest, rfl, hkept, hover⟩ := ih { fit with kept := fit.kept ++ [entry] }
        refine ⟨entry :: shed, rest, rfl, ?_, hover⟩
        rw [hkept, filter_cons_of_pos (by simpa using huser)]
        simp

theorem mem_shedReplies {budget : Int} {conversation : List CheckpointConversationEntry}
    (h : entry ∈ (shedReplies budget conversation fit).kept) :
    entry ∈ fit.kept ∨ entry ∈ conversation := by
  obtain ⟨shed, rest, rfl, hkept, _⟩ := shedReplies_kept budget conversation fit
  rw [hkept, mem_append, mem_append] at h
  rcases h with (h | h) | h
  · exact Or.inl h
  · exact Or.inr (mem_append_left _ (mem_filter.mp h).1)
  · exact Or.inr (mem_append_right _ h)

/-! ## Trimming -/

/-- An entry without the middle of its text. -/
def CheckpointConversationEntry.middle (entry : CheckpointConversationEntry) (edge : Nat) :
    CheckpointConversationEntry := { entry with text := middleTrim entry.text edge }

/-- A message that may be trimmed: of a partner, and as it was cleaned. -/
structure Message (entry : CheckpointConversationEntry) : Prop where
  role : entry.role = utf8 "user"
  trimmed : Trimmed entry.text
  some : entry.text ≠ []

theorem Message.of_clean (h : entry.Clean) (hrole : entry.role = utf8 "user") : Message entry := by
  refine ⟨hrole, ?_, h.some⟩
  rw [← h.trimmed]
  exact trimBytes_trimmed _

theorem Message.eq (h : Message entry) : entry = ⟨utf8 "user", entry.text⟩ := by rw [← h.role]

theorem Message.shown_middle {entry : CheckpointConversationEntry} (h : Message entry) (edge : Nat) :
    Shown (entry.middle edge) := by
  have hsome : trimBytes entry.text ≠ [] := by
    rw [trimBytes_of_trimmed h.trimmed]
    exact h.some
  unfold Shown CheckpointConversationEntry.middle
  rw [h.role, cleanEntry_user (trimBytes_middleTrim_ne_nil hsome edge)]
  simp

theorem Message.shown (h : Message entry) : Shown entry := by
  have hshown := h.shown_middle entry.text.length
  unfold CheckpointConversationEntry.middle at hshown
  rwa [middleTrim_short (by omega)] at hshown

theorem Message.size_middle (h : Message entry) (edge : Nat) :
    entrySize (entry.middle edge) + entry.text.length ≤
      entrySize entry + (middleTrim entry.text edge).length := by
  have hsize := entrySize_middleTrim h.trimmed h.some edge
  unfold CheckpointConversationEntry.middle
  rw [h.eq]
  exact hsize

/-- What fitting does to a message: nothing, or it trims it to ends of at least some bytes. -/
def Fitted (entry entry' : CheckpointConversationEntry) : Prop :=
  entry' = entry ∨ entry.role = utf8 "user" ∧ ∃ edge, partnerMessageEdgeChars ≤ edge ∧
    (middleTrim entry.text edge).length < entry.text.length ∧ entry' = entry.middle edge

theorem Fitted.role {entry' : CheckpointConversationEntry} (h : Fitted entry entry') :
    entry'.role = entry.role := by
  rcases h with rfl | ⟨_, edge, _, _, rfl⟩
  · rfl
  · rfl

theorem roles_of_fitted {l l' : List CheckpointConversationEntry} (h : List.Forall₂ Fitted l l') :
    l'.map CheckpointConversationEntry.role = l.map CheckpointConversationEntry.role := by
  induction h with
  | nil => rfl
  | cons hentry _ ih => rw [map_cons, map_cons, hentry.role, ih]

/-- A message as short as fitting makes it: trimmed to its two edges, unless that is no shorter. -/
def Floored (entry entry' : CheckpointConversationEntry) : Prop :=
  if (middleTrim entry.text partnerMessageEdgeChars).length < entry.text.length then
    entry' = entry.middle partnerMessageEdgeChars
  else entry' = entry

theorem Floored.of_short (h : entry.text.length ≤ 2 * partnerMessageEdgeChars) :
    Floored entry entry := by
  unfold Floored
  rw [middleTrim_short h, if_neg (by omega)]

/-- A run over the places in `order`. -/
structure Trims (budget : Int) (order : List Nat) (fit fit' : Fit) : Prop where
  exact : fit'.Exact []
  shown : ∀ entry ∈ fit'.kept, Shown entry
  length : fit'.kept.length = fit.kept.length
  shrinks : fit'.rendered ≤ fit.rendered
  fitted : ∀ (i : Nat) (entry : CheckpointConversationEntry), fit.kept[i]? = some entry →
    ∃ entry', fit'.kept[i]? = some entry' ∧ Fitted entry entry' ∧ (i ∉ order → entry' = entry) ∧
      (budget < fit'.rendered → i ∈ order → Floored entry entry')

theorem Trims.refl {budget : Int} {order : List Nat} (hexact : fit.Exact [])
    (hshown : ∀ entry ∈ fit.kept, Shown entry) (hdone : fit.rendered ≤ budget ∨ order = []) :
    Trims budget order fit fit := by
  refine ⟨hexact, hshown, rfl, Int.le_refl _, fun i entry hentry => ?_⟩
  refine ⟨entry, hentry, Or.inl rfl, fun _ => rfl, fun hover hmem => ?_⟩
  rcases hdone with hfits | rfl
  · omega
  · exact absurd hmem not_mem_nil

/-- One message is trimmed; the rendering shrinks, to the budget unless the message is at its
    floor. -/
theorem Fit.Exact.trimmed {fit : Fit} {i edge : Nat} {entry : CheckpointConversationEntry}
    (hexact : fit.Exact []) (hentry : fit.kept[i]? = some entry) (hmessage : Message entry) :
    (Fit.mk (fit.rendered + (blockLen (entry.middle edge) - blockLen entry))
      (fit.kept.set i (entry.middle edge))).Exact [] ∧
      blockLen (entry.middle edge) - blockLen entry ≤
        (middleTrim entry.text edge).length - (entry.text.length : Int) := by
  have hsize := hmessage.size_middle edge
  rw [blockLen_eq hmessage.shown, blockLen_eq (hmessage.shown_middle edge)]
  refine ⟨?_, by omega⟩
  obtain ⟨hi, hget⟩ := List.getElem?_eq_some_iff.mp hentry
  have hkept : fit.kept = fit.kept.take i ++ entry :: fit.kept.drop (i + 1) := by
    rw [← hget, ← drop_eq_getElem_cons hi, take_append_drop]
  unfold Fit.Exact at hexact ⊢
  rw [append_nil] at hexact ⊢
  rw [hexact, set_eq_take_append_cons_drop, if_pos hi]
  conv_lhs => rw [hkept]
  simp only [map_append, map_cons, sum_append, sum_cons]
  omega

/-- At its floor a message keeps its two edges. -/
theorem edge_floor {budget rendered : Int} {text : Bytes}
    (hfloor : keepOf budget rendered text = 2 * (partnerMessageEdgeChars : Int)) :
    (keepOf budget rendered text / 2).toNat = partnerMessageEdgeChars := by
  rw [hfloor]
  decide

theorem keep_floor (budget rendered : Int) (text : Bytes) :
    2 * (partnerMessageEdgeChars : Int) ≤ keepOf budget rendered text := Int.le_max_left _ _

theorem trimLongest_run {budget : Int} {order : List Nat} {fit : Fit} (hnodup : order.Nodup)
    (hmessages : ∀ i ∈ order, ∃ entry, fit.kept[i]? = some entry ∧ Message entry)
    (hexact : fit.Exact []) (hshown : ∀ entry ∈ fit.kept, Shown entry) :
    Trims budget order fit (trimLongest budget order fit) := by
  induction order generalizing fit with
  | nil => exact Trims.refl hexact hshown (Or.inr rfl)
  | cons i rest ih =>
    rw [nodup_cons] at hnodup
    rw [trimLongest]
    split
    · next hfits => exact Trims.refl hexact hshown (Or.inl hfits)
    · next hover =>
      obtain ⟨entry, hentry, hmessage⟩ := hmessages i mem_cons_self
      have hkeep := keep_floor budget fit.rendered entry.text
      have hedge : partnerMessageEdgeChars ≤
          (keepOf budget fit.rendered entry.text / 2).toNat := by omega
      rw [hentry]
      dsimp only
      split
      · next hlong =>
        -- not even a floor is shorter, or more would have been cut
        have hrun := ih hnodup.2 (fun j hj => hmessages j (mem_cons_of_mem i hj)) hexact hshown
        refine ⟨hrun.exact, hrun.shown, hrun.length, hrun.shrinks, fun j entry' hj => ?_⟩
        obtain ⟨after, hafter, hfitted, hsame, hfloor⟩ := hrun.fitted j entry' hj
        refine ⟨after, hafter, hfitted, fun hout => hsame fun hin =>
          hout (mem_cons_of_mem i hin), fun hlarge hin => ?_⟩
        rcases mem_cons.mp hin with rfl | hin
        · rw [hentry] at hj
          cases hj
          have hself := hsame hnodup.1
          have hatFloor : keepOf budget fit.rendered entry.text =
              2 * (partnerMessageEdgeChars : Int) := by
            by_contra hmore
            have := @middleTrim_over budget fit.rendered entry.text (by omega) (by omega)
            omega
          rw [edge_floor hatFloor] at hlong
          unfold Floored
          rwa [if_neg (by omega)]
        · exact hfloor hlarge hin
      · next hshort =>
        generalize hcut : (keepOf budget fit.rendered entry.text / 2).toNat = edge at hedge hshort ⊢
        change Trims budget (i :: rest) fit (trimLongest budget rest
          ⟨fit.rendered + (blockLen (entry.middle edge) - blockLen entry),
            fit.kept.set i (entry.middle edge)⟩)
        obtain ⟨hnext, hshrinks⟩ := @Fit.Exact.trimmed fit i edge entry hexact hentry hmessage
        have hat : ∀ j, (fit.kept.set i (entry.middle edge))[j]? =
            if i = j then some (entry.middle edge) else fit.kept[j]? := by
          intro j
          rw [getElem?_set]
          split
          · obtain ⟨hi, _⟩ := List.getElem?_eq_some_iff.mp hentry
            simp [hi]
          · rfl
        have hrun := @ih ⟨_, fit.kept.set i (entry.middle edge)⟩ hnodup.2 (fun j hj => by
            have hne : i ≠ j := fun heq => hnodup.1 (heq ▸ hj)
            rw [hat, if_neg hne]
            exact hmessages j (mem_cons_of_mem i hj)) hnext (fun e he => by
            rcases mem_or_eq_of_mem_set he with he | rfl
            · exact hshown e he
            · exact hmessage.shown_middle edge)
        have hle := hrun.shrinks
        dsimp only at hle
        refine ⟨hrun.exact, hrun.shown, ?_, by omega, fun j entry' hj => ?_⟩
        · exact hrun.length.trans length_set
        · by_cases hij : i = j
          · subst hij
            rw [hentry] at hj
            cases hj
            obtain ⟨after, hafter, _, hsame, _⟩ := hrun.fitted i (entry.middle edge) (by
              rw [hat, if_pos rfl])
            rw [hsame hnodup.1] at hafter
            refine ⟨_, hafter, Or.inr ⟨hmessage.role, edge, hedge, by omega, rfl⟩,
              fun hout => absurd mem_cons_self hout, fun hlarge _ => ?_⟩
            have hatFloor : keepOf budget fit.rendered entry.text =
                2 * (partnerMessageEdgeChars : Int) := by
              by_contra hmore
              have hcutover := @middleTrim_over budget fit.rendered entry.text
                (by omega) (by omega)
              rw [hcut] at hcutover
              omega
            rw [edge_floor hatFloor] at hcut
            subst hcut
            unfold Floored
            rw [if_pos (by omega)]
          · obtain ⟨after, hafter, hfitted, hsame, hfloor⟩ := hrun.fitted j entry' (by
              rw [hat, if_neg hij]
              exact hj)
            refine ⟨after, hafter, hfitted, fun hout => hsame fun hin =>
              hout (mem_cons_of_mem i hin), fun hlarge hin => ?_⟩
            exact hfloor hlarge ((mem_cons.mp hin).resolve_left (Ne.symm hij))

/-! ## The fitted conversation -/

theorem mem_longMessages {kept : List CheckpointConversationEntry} {i : Nat}
    (hentry : kept[i]? = some entry) :
    i ∈ longMessages kept ↔ 2 * partnerMessageEdgeChars < entry.text.length := by
  obtain ⟨hi, rfl⟩ := List.getElem?_eq_some_iff.mp hentry
  unfold longMessages
  rw [mem_sortBy, mem_filter, mem_range]
  simp [hi]

theorem longMessages_lt {kept : List CheckpointConversationEntry} {i : Nat}
    (h : i ∈ longMessages kept) : i < kept.length := by
  unfold longMessages at h
  rw [mem_sortBy, mem_filter, mem_range] at h
  exact h.1

theorem longMessages_nodup (kept : List CheckpointConversationEntry) : (longMessages kept).Nodup := by
  unfold longMessages
  exact (sortBy_perm _).nodup_iff.mpr (nodup_range.filter _)

theorem Fit.Exact.render (h : fit.Exact []) (hne : fit.kept ≠ [])
    (hshown : ∀ entry ∈ fit.kept, Shown entry) :
    fit.rendered = (renderCheckpointConversation fit.kept).length := by
  unfold Fit.Exact at h
  rw [h, length_render_shown hne hshown, append_nil]
  simp

theorem Fit.Exact.render_le (h : fit.Exact []) (hshown : ∀ entry ∈ fit.kept, Shown entry) :
    (renderCheckpointConversation fit.kept).length ≤ fit.rendered := by
  by_cases hne : fit.kept = []
  · unfold Fit.Exact at h
    rw [hne] at h ⊢
    rw [h]
    simp [renderCheckpointConversation, cleanCheckpointConversation]
  · exact Int.le_of_eq (h.render hne hshown).symm

theorem shown_of_clean (h : entry.Clean) : Shown entry := by
  unfold Shown
  rw [cleanEntry_of_clean h]
  simp

section Conversation

variable {conversation : List CheckpointConversationEntry} (budget : Int)

/-- Where shedding ends. -/
def shedFit (conversation : List CheckpointConversationEntry) : Fit :=
  shedReplies budget conversation (startFit conversation)

theorem shedFit_exact (hclean : ∀ entry ∈ conversation, entry.Clean) (hne : conversation ≠ []) :
    (shedFit budget conversation).Exact [] ∧
      ∀ entry ∈ (shedFit budget conversation).kept, Shown entry := by
  have hshown := fun e he => shown_of_clean (hclean e he)
  have hstart := startFit_exact hne hshown
  refine ⟨shedReplies_exact [] hshown (by rwa [append_nil]), fun entry hentry => ?_⟩
  exact hshown entry ((mem_shedReplies hentry).resolve_left not_mem_nil)

/-- At each entry the running length is that of what is kept and of what is still to come. -/
theorem shed_running (hclean : ∀ entry ∈ conversation, entry.Clean)
    {processed rest : List CheckpointConversationEntry} (hsplit : conversation = processed ++ rest)
    (hne : (shedReplies budget processed (startFit conversation)).kept ++ rest ≠ []) :
    (shedReplies budget processed (startFit conversation)).rendered =
      (renderCheckpointConversation
        ((shedReplies budget processed (startFit conversation)).kept ++ rest)).length := by
  subst hsplit
  have hshown := fun e he => shown_of_clean (hclean e he)
  have hconversation : processed ++ rest ≠ [] := by
    intro hnil
    obtain ⟨rfl, rfl⟩ := append_eq_nil_iff.mp hnil
    exact hne rfl
  have hexact := @shedReplies_exact budget _ _ rest
    (fun e he => hshown e (mem_append_left _ he)) (startFit_exact hconversation hshown)
  unfold Fit.Exact at hexact
  rw [hexact, length_render_shown hne fun e he => ?_]
  · simp
  · rcases mem_append.mp he with he | he
    · exact hshown e (mem_append_left _ ((mem_shedReplies he).resolve_left not_mem_nil))
    · exact hshown e (mem_append_right _ he)

/-- Over the budget, only messages are left. -/
theorem shedFit_messages (hclean : ∀ entry ∈ conversation, entry.Clean)
    (hover : budget < (shedFit budget conversation).rendered) :
    ∀ entry ∈ (shedFit budget conversation).kept, Message entry := by
  obtain ⟨shed, rest, hsplit, hkept, hrest⟩ :=
    shedReplies_kept budget conversation (startFit conversation)
  intro entry hentry
  unfold shedFit at hentry
  rw [hkept, hrest hover, append_nil] at hentry
  rcases mem_append.mp hentry with hentry | hentry
  · exact absurd hentry not_mem_nil
  · rw [mem_filter] at hentry
    refine Message.of_clean (hclean entry ?_) (by simpa using hentry.2)
    rw [hsplit]
    exact mem_append_left _ hentry.1

/-- Every run over some of the long messages. -/
theorem shedFit_trims (hclean : ∀ entry ∈ conversation, entry.Clean) (hne : conversation ≠ [])
    (hover : budget < (shedFit budget conversation).rendered) {order : List Nat}
    (horder : order.Nodup) (hlong : ∀ i ∈ order, i ∈ longMessages (shedFit budget conversation).kept) :
    Trims budget order (shedFit budget conversation)
      (trimLongest budget order (shedFit budget conversation)) := by
  obtain ⟨hexact, hshown⟩ := shedFit_exact budget hclean hne
  refine trimLongest_run horder (fun i hi => ?_) hexact hshown
  have hlt := longMessages_lt (hlong i hi)
  exact ⟨_, getElem?_eq_getElem hlt,
    shedFit_messages budget hclean hover _ (getElem_mem hlt)⟩

/-- So it is after each message that is trimmed. -/
theorem trim_running (hclean : ∀ entry ∈ conversation, entry.Clean) {processed rest : List Nat}
    (hsplit : longMessages (shedFit budget conversation).kept = processed ++ rest)
    (hover : budget < (shedFit budget conversation).rendered)
    (hne : (trimLongest budget processed (shedFit budget conversation)).kept ≠ []) :
    (trimLongest budget processed (shedFit budget conversation)).rendered =
      (renderCheckpointConversation
        (trimLongest budget processed (shedFit budget conversation)).kept).length := by
  by_cases hnil : conversation = []
  · subst hnil
    have hnone : processed = [] := (append_eq_nil_iff.mp (hsplit.symm.trans rfl)).1
    subst hnone
    exact absurd rfl hne
  · have hnodup := longMessages_nodup (shedFit budget conversation).kept
    rw [hsplit] at hnodup
    have hrun := shedFit_trims budget hclean hnil hover hnodup.of_append_left fun i hi => by
      rw [hsplit]
      exact mem_append_left _ hi
    exact hrun.exact.render hne hrun.shown

theorem fit_kept {recoverable : Bool}
    (h : (shedFit budget conversation).rendered ≤ budget ∨ recoverable = false) :
    fitCheckpointConversation conversation budget recoverable = (shedFit budget conversation).kept :=
  if_pos h

theorem fit_trimmed (h : budget < (shedFit budget conversation).rendered) :
    fitCheckpointConversation conversation budget true =
      (trimLongest budget (longMessages (shedFit budget conversation).kept)
        (shedFit budget conversation)).kept := by
  refine if_neg fun hstop => ?_
  rcases hstop with hfits | hlost
  · exact absurd hfits (Int.not_le.mpr h)
  · exact nomatch hlost

/-- Fitting keeps the messages in their order, sheds replies in front of some place only, and over
    the budget has done all it may. -/
theorem fit_spec (hclean : ∀ entry ∈ conversation, entry.Clean) (recoverable : Bool) :
    ∃ shed rest, conversation = shed ++ rest ∧
      List.Forall₂ Fitted ((shed.filter fun entry => entry.role = utf8 "user") ++ rest)
        (fitCheckpointConversation conversation budget recoverable) ∧
      (∀ entry ∈ fitCheckpointConversation conversation budget recoverable, Shown entry) ∧
      (budget < (renderCheckpointConversation
        (fitCheckpointConversation conversation budget recoverable)).length →
        rest = [] ∧ (recoverable = true → List.Forall₂ Floored
          (shed.filter fun entry => entry.role = utf8 "user")
          (fitCheckpointConversation conversation budget recoverable))) := by
  obtain ⟨shed, rest, hsplit, hkept, hrest⟩ :=
    shedReplies_kept budget conversation (startFit conversation)
  change (shedFit budget conversation).kept = [] ++ _ ++ rest at hkept
  change budget < (shedFit budget conversation).rendered → rest = [] at hrest
  rw [nil_append] at hkept
  refine ⟨shed, rest, hsplit, ?_⟩
  by_cases hnil : conversation = []
  · subst hnil
    obtain ⟨rfl, rfl⟩ := append_eq_nil_iff.mp hsplit.symm
    have hfit : fitCheckpointConversation [] budget recoverable = [] := by
      unfold fitCheckpointConversation startFit
      dsimp only [shedReplies]
      split
      · rfl
      · rfl
    rw [hfit]
    exact ⟨.nil, fun _ h => absurd h not_mem_nil, fun _ => ⟨rfl, fun _ => .nil⟩⟩
  · obtain ⟨hexact, hshown⟩ := shedFit_exact budget hclean hnil
    have hle := hexact.render_le hshown
    rw [← hkept]
    by_cases hstop : (shedFit budget conversation).rendered ≤ budget ∨ recoverable = false
    · rw [fit_kept budget hstop]
      refine ⟨forall₂_same.mpr fun _ _ => Or.inl rfl, hshown, fun hover => ⟨hrest (by omega),
        fun hrecoverable => ?_⟩⟩
      rcases hstop with hfits | hlost
      · omega
      · rw [hlost] at hrecoverable
        exact nomatch hrecoverable
    · rw [not_or, Bool.not_eq_false, Int.not_le] at hstop
      obtain ⟨hover, rfl⟩ := hstop
      have hrun := shedFit_trims budget hclean hnil hover (longMessages_nodup _) fun _ h => h
      have hbelow := hrun.exact.render_le hrun.shown
      rw [fit_trimmed budget hover]
      have hat : ∀ (i : Nat) (hi : i < (shedFit budget conversation).kept.length)
          (hi' : i < (trimLongest budget (longMessages (shedFit budget conversation).kept)
            (shedFit budget conversation)).kept.length),
          Fitted (shedFit budget conversation).kept[i] (trimLongest budget
            (longMessages (shedFit budget conversation).kept) (shedFit budget conversation)).kept[i] ∧
          (budget < (trimLongest budget (longMessages (shedFit budget conversation).kept)
            (shedFit budget conversation)).rendered →
            Floored (shedFit budget conversation).kept[i] (trimLongest budget
              (longMessages (shedFit budget conversation).kept)
              (shedFit budget conversation)).kept[i]) := by
        intro i hi hi'
        have hentry := getElem?_eq_getElem hi
        obtain ⟨after, hafter, hfitted, hsame, hfloor⟩ := hrun.fitted i _ hentry
        obtain ⟨_, rfl⟩ := List.getElem?_eq_some_iff.mp hafter
        refine ⟨hfitted, fun hlarge => ?_⟩
        by_cases hlong : i ∈ longMessages (shedFit budget conversation).kept
        · exact hfloor hlarge hlong
        · rw [hsame hlong]
          rw [mem_longMessages hentry] at hlong
          exact Floored.of_short (Nat.not_lt.mp hlong)
      refine ⟨forall₂_iff_get.mpr ⟨hrun.length.symm, fun i hi hi' => (hat i hi hi').1⟩, hrun.shown,
        fun hlarge => ⟨hrest hover, fun _ => ?_⟩⟩
      rw [hrest hover, append_nil] at hkept
      rw [← hkept]
      exact forall₂_iff_get.mpr ⟨hrun.length.symm, fun i hi hi' => (hat i hi hi').2 (by omega)⟩

end Conversation

end Evener.Contextmgr
