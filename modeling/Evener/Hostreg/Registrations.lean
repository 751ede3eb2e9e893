/-
  The registrations of a run: no two share a generation or an incarnation, and a captured entry
  stays the registered one until a call changes its name.
-/
import Evener.Hostreg.Registered

namespace Evener.Hostreg

open Evener.Lib List Function Option

variable {r₀ r r' : Registry} {past : List Event} {future : List String} {e : Event}

variable {h : Host} {name : String} {all : List String} {reply : Reply} {op : Op} {ops : List Op}

/-! ## Runs -/

theorem history_cons (r : Registry) (op : Op) (ops : List Op) :
    history r (op :: ops) = r.event op :: history (r.event op).after ops := rfl

theorem filterMap_generated (op : Op) (ops : List Op) :
    (op :: ops).filterMap Op.generated = op.generated.toList ++ ops.filterMap Op.generated := by
  rw [filterMap_cons]
  cases op.generated <;> rfl

theorem Inv.history (hi : Inv r₀ past (ops.filterMap Op.generated ++ future) r)
    (hnodup : (ops.filterMap Op.generated ++ future).Nodup) :
    Inv r₀ (past ++ history r ops) future (run r ops) ∧ (history r ops).Pairwise Precedes ∧
      ∀ e ∈ history r ops, Follows r₀ e ∧ ∀ e' ∈ past, Precedes e' e := by
  induction ops generalizing r past with
  | nil =>
    refine ⟨?_, List.Pairwise.nil, fun e he => (nomatch he)⟩
    rw [show history r [] = [] from rfl, append_nil]
    exact hi
  | cons op ops ih =>
    rw [filterMap_generated, append_assoc] at hi hnodup
    have hstep := hi.step hnodup
    obtain ⟨hinv, hpairs, hrest⟩ := ih hstep.inv (nodup_append.mp hnodup).2.1
    rw [history_cons]
    refine ⟨?_, pairwise_cons.mpr ⟨fun e he => ?_, hpairs⟩, fun e he => ?_⟩
    · rw [append_assoc] at hinv
      exact hinv
    · exact (hrest e he).2 _ (mem_append_right _ (mem_singleton.mpr rfl))
    · rcases mem_cons.mp he with rfl | he
      · exact ⟨hstep.follows, hstep.precedes⟩
      · exact ⟨(hrest e he).1, fun e' he' => (hrest e he).2 e' (mem_append_left _ he')⟩

theorem event_hosts (hnamed : ∀ n live, r.hosts n = some live → live.name = n)
    (h : ¬ (r.event op).Registers name) : (r.event op).after.hosts name = r.hosts name := by
  cases happly : r.apply op with
  | error err =>
    rw [event_error happly]
  | ok result =>
    obtain ⟨reply, r'⟩ := result
    rw [event_ok happly] at h ⊢
    have hother : ∀ {n}, op.target = some n → name ≠ n := by
      rintro n htarget rfl
      exact h ⟨rfl, htarget⟩
    cases apply_change hnamed happly with
    | stamps hs => exact congrFun hs.hosts name
    | mints h hl htarget => exact hl.hosts_of_ne (hother htarget)
    | consumes h hl htarget => exact hl.hosts_of_ne (hother htarget)
    | updates h live hl hname => exact hl.hosts_of_ne (hname ▸ hother rfl)
    | removes _ hhosts =>
      show r'.hosts name = r.hosts name
      rw [hhosts, update_of_ne (hother rfl)]
    | links edges => rfl

/-- The registration of a name is the one that the last call on it left. -/
theorem Inv.run_hosts (hi : Inv r₀ past (ops.filterMap Op.generated ++ future) r)
    (hnodup : (ops.filterMap Op.generated ++ future).Nodup) (name : String) :
    (∀ e ∈ Hostreg.history r ops, ¬ e.Registers name) ∧ (run r ops).hosts name = r.hosts name ∨
      ∃ e ∈ Hostreg.history r ops, e.Registers name ∧
        (run r ops).hosts name = e.after.hosts name := by
  induction ops generalizing r past with
  | nil => exact Or.inl ⟨fun e he => (nomatch he), rfl⟩
  | cons op ops ih =>
    rw [filterMap_generated, append_assoc] at hi hnodup
    rw [history_cons]
    rcases ih (hi.step hnodup).inv (nodup_append.mp hnodup).2.1 with ⟨hnone, hsame⟩ | ⟨e, he, hreg⟩
    · by_cases hfirst : (r.event op).Registers name
      · exact Or.inr ⟨_, mem_cons_self, hfirst, hsame⟩
      · refine Or.inl ⟨fun e he => ?_, hsame.trans (event_hosts (fun n live h => ?_) hfirst)⟩
        · rcases mem_cons.mp he with rfl | he
          · exact hfirst
          · exact hnone e he
        · exact (hi.live n live h).1
    · exact Or.inr ⟨e, mem_cons_of_mem _ he, hreg⟩

/-! ## Boot -/

/-- What a boot leaves. -/
structure Booted (r : Registry) : Prop where
  live : ∀ name h, r.hosts name = some h →
    h.name = name ∧ h.generation ≤ r.gen ∧ h.presenceEpoch ≤ r.presence name
  pending : ∀ name, r.pending name = none

theorem Booted.seedMark (h : Booted r) (name : String) (mark : HighWater) :
    Booted (r.seedMark name mark) := by
  refine ⟨fun n x hx => ?_, h.pending⟩
  show x.name = n ∧ x.generation ≤ raised r.gen mark.generation ∧ x.presenceEpoch ≤
    Function.update r.presence name (raised (r.presence name) mark.presenceEpoch) n
  have hold : r.hosts n = some x → x.name = n ∧ x.generation ≤ raised r.gen mark.generation ∧
      x.presenceEpoch ≤
        Function.update r.presence name (raised (r.presence name) mark.presenceEpoch) n := by
    intro hx
    obtain ⟨hname, hgen, hpresence⟩ := h.live n x hx
    exact ⟨hname, UInt64.le_trans hgen (le_raised _ _),
      UInt64.le_trans hpresence (le_update (le_raised _ _) n)⟩
  unfold Registry.seedMark at hx
  cases hlive : r.hosts name with
  | none =>
    rw [hlive] at hx
    exact hold hx
  | some live =>
    rw [hlive] at hx
    dsimp only at hx
    by_cases hn : n = name
    · subst hn
      rw [update_self] at hx
      obtain rfl := some.inj hx
      obtain ⟨hname, hgen, hpresence⟩ := h.live n live hlive
      rw [update_self]
      refine ⟨hname, raised_le (UInt64.le_trans hgen (le_raised _ _)) (value_le_raised _ _), ?_⟩
      exact raised_le (UInt64.le_trans hpresence (le_raised _ _)) (UInt64.le_refl _)
    · rw [update_of_ne hn] at hx
      exact hold hx

theorem Booted.seed (h : Booted r) (entry : Host) (id : Option String) :
    Booted (r.seed entry id).2 := by
  unfold Registry.seed
  dsimp only
  split
  · exact h
  · split
    · exact h
    · unfold Registry.seedLocked
      split
      · exact h
      · next generation _ =>
        have hraised : Booted { r with gen := raised r.gen generation } := by
          refine ⟨fun n x hx => ?_, h.pending⟩
          obtain ⟨hname, hgen, hpresence⟩ := h.live n x hx
          exact ⟨hname, UInt64.le_trans hgen (le_raised _ _), hpresence⟩
        dsimp only
        split
        · exact hraised
        · split
          · exact hraised
          · next presence _ =>
            refine ⟨fun n x hx => ?_, h.pending⟩
            have hle := @le_update r.presence (normalize entry).name
              (raised (r.presence (normalize entry).name) presence) (le_raised _ _) n
            dsimp only at hx ⊢
            by_cases hn : n = (normalize entry).name
            · subst hn
              rw [update_self] at hx
              obtain rfl := some.inj hx
              rw [update_self]
              exact ⟨rfl, value_le_raised _ _, value_le_raised _ _⟩
            · rw [update_of_ne hn] at hx
              obtain ⟨hname, hgen, hpresence⟩ := h.live n x hx
              exact ⟨hname, UInt64.le_trans hgen (le_raised _ _), UInt64.le_trans hpresence hle⟩

theorem booted (seeds : List Seed) : Booted (boot seeds) := by
  have hempty : Booted {} := by
    refine ⟨fun name x hx => ?_, fun _ => rfl⟩
    cases hx
  unfold boot
  refine List.foldlRecOn seeds _ hempty fun r h seed _ => ?_
  cases seed with
  | highWater marks => exact List.foldlRecOn marks _ h fun r h mark _ => h.seedMark mark.1 mark.2
  | restored entry id => exact h.seed entry id

theorem Booted.inv (h : Booted r)
    (hids : ∀ name host, r.hosts name = some host → host.incarnationID ∉ future) :
    Inv r [] future r := by
  have hhad : ∀ x, Had r [] x → r.hosts x.name = some x := by
    rintro x (⟨name, hx⟩ | ⟨e, he, _⟩)
    · rw [(h.live name x hx).1]
      exact hx
    · cases he
  have hnone : ∀ n i, r.pending n ≠ some i := by
    intro n i hi
    rw [h.pending] at hi
    cases hi
  constructor
  case gen => exact UInt64.le_refl _
  case presence => exact fun _ => UInt64.le_refl _
  case live =>
    intro name x hx
    obtain ⟨hname, _⟩ := h.live name x hx
    refine ⟨hname, Or.inl ⟨name, hx⟩, fun x' hx' hsame => ?_⟩
    have hsame' := hhad x' hx'
    rw [hsame, hx] at hsame'
    rw [some.inj hsame']
    exact UInt64.le_refl _
  case had =>
    intro x hx
    exact ⟨(h.live _ x (hhad x hx)).2.1, hids _ x (hhad x hx)⟩
  case recorded => exact fun e he => nomatch he
  case held => exact fun n i hi => absurd hi (hnone n i)
  case apart => exact fun n m i j _ hi _ => absurd hi (hnone n i)
  case free => exact fun n i hi => absurd hi (hnone n i)
  case freeApart => exact fun n m i j _ hi _ => absurd hi (hnone n i)

/-! ## Captures -/

theorem sameRegistration_refl (h : Host) : sameRegistration h h = true := by
  simp [sameRegistration, Host.equal]

theorem sameRegistration_generation {a b : Host} (h : sameRegistration a b = true) :
    a.generation = b.generation := by
  simp only [sameRegistration, Bool.and_eq_true, decide_eq_true_eq] at h
  exact h.1.2

/-- A capture matches until a call changes the registration of its name. -/
theorem Inv.captured (hi : Inv r₀ past (ops.filterMap Op.generated) r)
    (hnodup : (ops.filterMap Op.generated).Nodup)
    (hboot : ∀ name h, r₀.hosts name = some h → h.generation ≤ r₀.gen) {captured : Host}
    (hget : r.get name = some captured) :
    (run r ops).sameRegistration name captured = true ↔
      ∀ e ∈ Hostreg.history r ops, ¬ e.Registers (trimSpace name) := by
  rw [← append_nil (ops.filterMap _)] at hi hnodup
  obtain ⟨hnamed, hhad, _⟩ := hi.live (trimSpace name) captured hget
  unfold Registry.sameRegistration Registry.get
  rcases hi.run_hosts hnodup (trimSpace name) with ⟨hnone, hsame⟩ | ⟨e, he, hreg, hhosts⟩
  · rw [hsame, show r.hosts (trimSpace name) = some captured from hget]
    exact ⟨fun _ => hnone, fun _ => sameRegistration_refl captured⟩
  · have hchanged : ¬ ∀ e ∈ Hostreg.history r ops, ¬ e.Registers (trimSpace name) := fun hall =>
      hall e he hreg
    refine ⟨fun hmatch => ?_, fun hall => absurd hall hchanged⟩
    rw [hhosts] at hmatch
    obtain ⟨hok, htarget⟩ := hreg
    cases hafter : e.after.hosts (trimSpace name) with
    | none =>
      rw [hafter] at hmatch
      cases hmatch
    | some current =>
      rw [hafter] at hmatch
      have hcarried : e.carried = some current := by
        unfold Event.carried
        cases hreply : e.reply with
        | ok reply =>
          show e.op.target.bind e.after.hosts = some current
          rw [htarget, bind_some, hafter]
        | error err =>
          rw [hreply] at hok
          cases hok
      obtain ⟨_, _, hrest⟩ := hi.history hnodup
      obtain ⟨hfollows, hprecedes⟩ := hrest e he
      have hname : current.name = captured.name := by
        have hself := hfollows.named current hcarried
        rw [htarget] at hself
        rw [hnamed, ← some.inj hself]
      -- the entry that is registered now carries a later generation
      have hlt : captured.generation < current.generation := by
        rcases hhad with ⟨n, hold⟩ | ⟨e', he', hc⟩
        · exact UInt64.lt_of_le_of_lt (hboot n captured hold) (hfollows.generation current hcarried)
        · exact ((hprecedes e' he').generation captured hc current hcarried).2 hname.symm
      exact absurd (sameRegistration_generation hmatch) (UInt64.ne_of_lt hlt).symm

/-- `hids`: no generated incarnation id repeats, and none is one that a restored host has. -/
theorem registration_fenced (seeds : List Seed) (ops : List Op)
    (hids : (ops.filterMap Op.generated).Nodup)
    (hrestored : ∀ name host, (boot seeds).hosts name = some host →
      host.incarnationID ∉ ops.filterMap Op.generated) :
    (∀ ops₁ ops₂ name captured, ops = ops₁ ++ ops₂ →
      (run (boot seeds) ops₁).get name = some captured →
      ((run (boot seeds) ops).sameRegistration name captured = true ↔
        ∀ e ∈ history (run (boot seeds) ops₁) ops₂, ¬ e.Registers (trimSpace name))) ∧
    (∀ name host, (boot seeds).hosts name = some host →
      host.generation ≤ (boot seeds).gen ∧ host.presenceEpoch ≤ (boot seeds).presence name) ∧
    (∀ e ∈ history (boot seeds) ops, Follows (boot seeds) e) ∧
    (history (boot seeds) ops).Pairwise Precedes := by
  have hbooted := booted seeds
  have hrun : ∀ ops₁ ops₂, ops = ops₁ ++ ops₂ →
      Inv (boot seeds) (history (boot seeds) ops₁) (ops₂.filterMap Op.generated)
        (run (boot seeds) ops₁) ∧ (ops₂.filterMap Op.generated).Nodup := by
    rintro ops₁ ops₂ rfl
    rw [filterMap_append] at hids hrestored
    exact ⟨((hbooted.inv hrestored).history hids).1, (nodup_append.mp hids).2.1⟩
  have hinitial : Inv (boot seeds) [] (ops.filterMap Op.generated ++ []) (boot seeds) :=
    hbooted.inv (by simpa using hrestored)
  have hall := hinitial.history (by simpa using hids)
  refine ⟨fun ops₁ ops₂ name captured hops hget => ?_, fun name host hhost => ?_,
    fun e he => (hall.2.2 e he).1, hall.2.1⟩
  · obtain ⟨hinv, hnodup⟩ := hrun ops₁ ops₂ hops
    have hsplit : run (boot seeds) ops = run (run (boot seeds) ops₁) ops₂ := by
      rw [hops]
      exact foldl_append ..
    rw [hsplit]
    exact hinv.captured hnodup (fun n h hh => (hbooted.live n h hh).2.1) hget
  · exact (hbooted.live name host hhost).2

/-- A restored host, and another one that is stamped, added, removed and added again. -/
theorem added_again_fenced :
    let seeds := [Seed.restored { name := "m4", ssh := "m4.local" } (some "a")]
    let stamped : Host :=
      { name := "m5"
        ssh := "m5.local"
        generation := 2
        incarnationID := "b"
        presenceEpoch := 1 }
    let ops := [Op.stamp { name := "m5", ssh := "m5.local" } (some "b"),
      Op.addWithUpstreams stamped ["m4"] none, Op.remove "m5",
      Op.addWithUpstreams { name := "m5", ssh := "m5.local" } [] (some "c")]
    (history (boot seeds) ops).Pairwise Precedes ∧
      (run (boot seeds) (ops.take 2)).get "m5" = some stamped := by
  intro seeds stamped ops
  refine ⟨(registration_fenced seeds ops (by decide) fun name host hhost => ?_).2.2.2, by decide⟩
  have hboot : (boot seeds).hosts name = if name = "m4" then (boot seeds).hosts "m4" else none := by
    split
    · next hname => rw [hname]
    · next hname => exact update_of_ne hname _ _
  rw [hboot] at hhost
  split at hhost
  · have hid : ((boot seeds).hosts "m4").map Host.incarnationID = some "a" := by decide
    rw [hhost] at hid
    rw [show host.incarnationID = "a" from some.inj hid]
    decide
  · cases hhost

end Evener.Hostreg
