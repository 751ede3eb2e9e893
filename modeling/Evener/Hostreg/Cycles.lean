/-
  The upstream edges: no run closes a cycle, and a call is refused where its edges would.

  A removal takes the edges of its host and leaves those that name it.
-/
import Evener.Hostreg.Registry

namespace Evener.Hostreg

open Evener.Lib

section Check

variable {r : Registry}

theorem names_closed (upstreamNames : List String) :
    ∀ x ∈ r.names upstreamNames, ∀ y ∈ r.upstreams x, y ∈ r.names upstreamNames := by
  intro x _ y hy
  refine List.mem_append_right _ (List.mem_flatMap.mpr ⟨x, List.mem_append_right _ ?_, hy⟩)
  by_contra hx
  have hnone : lookup Prod.fst x r.edges = none :=
    lookup_eq_none.mpr fun edge hedge heq => hx (List.mem_map.mpr ⟨edge, hedge, heq⟩)
  unfold Registry.upstreams at hy
  rw [hnone] at hy
  cases hy

theorem checkCycle_walk (candidate : String) (upstreamNames : List String) :
    r.checkCycleLocked candidate upstreamNames =
      match walk r.upstreams (r.names upstreamNames).length candidate upstreamNames with
      | .ok _ => .ok ()
      | .error _ => .error (.hostCycle candidate) := rfl

/-- The walk of a check comes to an end by itself. -/
theorem check_ends (h : Acyclic (Edge r.upstreams)) (candidate : String)
    (upstreamNames : List String) :
    walk r.upstreams (r.names upstreamNames).length candidate upstreamNames ≠ .error .fuel := by
  intro hfuel
  have hspec := @walk_spec _ _ _ candidate _ _ (names_closed upstreamNames)
    (fun x hx => List.mem_append_left _ (List.mem_append_left _ hx)) h
  rw [hfuel] at hspec
  cases hspec.1

/-- The check passes where the new edges close no cycle, and refuses where they do. -/
theorem check_spec (h : Acyclic (Edge r.upstreams)) (candidate : String)
    (upstreamNames : List String) :
    (r.checkCycleLocked candidate upstreamNames = .ok () ∧
      Acyclic (Edge (relinked r.upstreams candidate upstreamNames))) ∨
    (r.checkCycleLocked candidate upstreamNames = .error (.hostCycle candidate) ∧
      ¬ Acyclic (Edge (relinked r.upstreams candidate upstreamNames))) := by
  have hspec := @walk_spec _ _ _ candidate _ _ (names_closed upstreamNames)
    (fun x hx => List.mem_append_left _ (List.mem_append_left _ hx)) h
  rw [checkCycle_walk, acyclic_relinked h]
  cases hwalk : walk r.upstreams (r.names upstreamNames).length candidate upstreamNames with
  | ok black =>
    rw [hwalk] at hspec
    exact Or.inl ⟨rfl, hspec⟩
  | error halt =>
    rw [hwalk] at hspec
    obtain ⟨_, x, hx, hreach⟩ := hspec
    exact Or.inr ⟨rfl, fun hnone => hnone x hx hreach⟩

/-! ## Edges -/

theorem upstreams_put (name : String) (upstreamNames : List String) :
    Registry.upstreams { r with edges := put Prod.fst (name, upstreamNames) r.edges } =
      relinked r.upstreams name upstreamNames := by
  funext x
  unfold Registry.upstreams relinked
  rw [lookup_put]
  by_cases hx : name = x
  · rw [if_pos hx, if_pos hx.symm]
    rfl
  · rw [if_neg hx, if_neg (Ne.symm hx)]

theorem upstreams_erase (name : String) :
    Registry.upstreams { r with edges := erase Prod.fst name r.edges } =
      relinked r.upstreams name [] := by
  funext x
  unfold Registry.upstreams relinked
  rw [lookup_erase]
  by_cases hx : x = name
  · rw [if_pos hx, if_pos hx]
    rfl
  · rw [if_neg hx, if_neg hx]

/-- What a call does to the edges: those of one host are replaced, where that closes no cycle. -/
inductive Relinks (r r' : Registry) : Prop where
  | keeps (h : r'.edges = r.edges)
  | replaces (name : String) (upstreamNames : List String)
      (h : r'.edges = put Prod.fst (name, upstreamNames) r.edges)
      (hacyclic : Acyclic (Edge r.upstreams) →
        Acyclic (Edge (relinked r.upstreams name upstreamNames)))
  | drops (name : String) (h : r'.edges = erase Prod.fst name r.edges)

theorem Relinks.acyclic {r' : Registry} (h : Relinks r r') (hacyclic : Acyclic (Edge r.upstreams)) :
    Acyclic (Edge r'.upstreams) := by
  have hedges : ∀ edges, r'.edges = edges → r'.upstreams = Registry.upstreams { r with edges } := by
    rintro _ rfl
    rfl
  cases h with
  | keeps h =>
    rw [hedges _ h]
    exact hacyclic
  | replaces name upstreamNames h hnext =>
    rw [hedges _ h, upstreams_put]
    exact hnext hacyclic
  | drops name h =>
    rw [hedges _ h, upstreams_erase]
    exact (acyclic_relinked hacyclic).mpr fun x hx => nomatch hx

theorem insertLocked_edges {r' : Registry} {entry : Host} {id : Option String}
    (h : r.insertLocked entry id = .ok r') : r'.edges = r.edges := by
  unfold Registry.insertLocked Registry.consumeStampLocked at h
  cases hpeek : r.peekStampLocked entry with
  | some i =>
    rw [hpeek] at h
    obtain rfl := Except.ok.inj h
    rfl
  | none =>
    rw [hpeek] at h
    obtain ⟨i, _, h⟩ := bind_eq_ok.mp h
    obtain rfl := Except.ok.inj h
    rfl

/-- A check that passed leaves no cycle behind the new edges. -/
theorem check_ok {candidate : String} {upstreamNames : List String} {u : Unit}
    (h : r.checkCycleLocked candidate upstreamNames = .ok u)
    (hacyclic : Acyclic (Edge r.upstreams)) :
    Acyclic (Edge (relinked r.upstreams candidate upstreamNames)) := by
  rcases check_spec hacyclic candidate upstreamNames with ⟨_, hnext⟩ | ⟨hrefused, _⟩
  · exact hnext
  · rw [hrefused] at h
    cases h

theorem apply_relinks {op : Op} {reply : Reply} {r' : Registry} (h : r.apply op = .ok (reply, r')) :
    Relinks r r' := by
  cases op with
  | stamp entry id =>
    obtain ⟨⟨i, r₁⟩, hstamp, heq⟩ := map_eq_ok.mp h
    obtain ⟨rfl, rfl⟩ := Prod.mk.inj heq
    unfold Registry.stamp at hstamp
    obtain ⟨_, _, hstamp⟩ := bind_eq_ok.mp hstamp
    obtain ⟨_, _, hstamp⟩ := bind_eq_ok.mp hstamp
    obtain ⟨_, _, hstamp⟩ := bind_eq_ok.mp hstamp
    obtain ⟨rfl, rfl⟩ := Prod.mk.inj (Except.ok.inj hstamp)
    exact .keeps rfl
  | addWithUpstreams entry upstreamNames id =>
    obtain ⟨r₁, hadd, heq⟩ := map_eq_ok.mp h
    obtain ⟨rfl, rfl⟩ := Prod.mk.inj heq
    unfold Registry.addWithUpstreams at hadd
    obtain ⟨_, _, hadd⟩ := bind_eq_ok.mp hadd
    obtain ⟨names, _, hadd⟩ := bind_eq_ok.mp hadd
    split at hadd
    · cases hadd
    · obtain ⟨_, hcheck, hadd⟩ := bind_eq_ok.mp hadd
      obtain ⟨r₂, hinsert, hadd⟩ := bind_eq_ok.mp hadd
      obtain rfl := Except.ok.inj hadd
      have hedges := insertLocked_edges hinsert
      exact .replaces (normalize entry).name names (by rw [← hedges]) (check_ok hcheck)
  | update entry =>
    obtain ⟨r₁, hupdate, heq⟩ := map_eq_ok.mp h
    obtain ⟨rfl, rfl⟩ := Prod.mk.inj heq
    unfold Registry.update at hupdate
    obtain ⟨_, _, hupdate⟩ := bind_eq_ok.mp hupdate
    split at hupdate
    · cases hupdate
    · obtain ⟨_, _, hupdate⟩ := bind_eq_ok.mp hupdate
      obtain rfl := Except.ok.inj hupdate
      exact .keeps rfl
  | remove name =>
    obtain ⟨r₁, hremove, heq⟩ := map_eq_ok.mp h
    obtain ⟨rfl, rfl⟩ := Prod.mk.inj heq
    unfold Registry.remove at hremove
    obtain ⟨_, _, hremove⟩ := bind_eq_ok.mp hremove
    split at hremove
    · cases hremove
    · obtain ⟨presence, _, hremove⟩ := bind_eq_ok.mp hremove
      obtain rfl := Except.ok.inj hremove
      exact .drops (trimSpace name) rfl
  | setUpstreams name upstreamNames =>
    obtain ⟨r₁, hset, heq⟩ := map_eq_ok.mp h
    obtain ⟨rfl, rfl⟩ := Prod.mk.inj heq
    unfold Registry.setUpstreams at hset
    obtain ⟨_, _, hset⟩ := bind_eq_ok.mp hset
    obtain ⟨names, _, hset⟩ := bind_eq_ok.mp hset
    split at hset
    · cases hset
    · obtain ⟨_, hcheck, hset⟩ := bind_eq_ok.mp hset
      obtain rfl := Except.ok.inj hset
      exact .replaces (trimSpace name) names rfl (check_ok hcheck)
  | rebaseBootCollision name id =>
    obtain ⟨⟨entry, r₁⟩, hrebase, heq⟩ := map_eq_ok.mp h
    obtain ⟨rfl, rfl⟩ := Prod.mk.inj heq
    unfold Registry.rebaseBootCollision at hrebase
    dsimp only at hrebase
    split at hrebase
    · cases hrebase
    · obtain ⟨_, _, hrebase⟩ := bind_eq_ok.mp hrebase
      obtain ⟨_, _, hrebase⟩ := bind_eq_ok.mp hrebase
      obtain ⟨_, _, hrebase⟩ := bind_eq_ok.mp hrebase
      obtain ⟨rfl, rfl⟩ := Prod.mk.inj (Except.ok.inj hrebase)
      exact .keeps rfl

end Check

theorem nextGeneration_error {r : Registry} {err : RegistryError}
    (h : r.nextGenerationLocked = .error err) : err = .generationExhausted := by
  unfold Registry.nextGenerationLocked at h
  split at h
  · exact (Except.error.inj h).symm
  · cases h

theorem nextPresence_error {r : Registry} {name : String} {err : RegistryError}
    (h : r.nextPresenceLocked name = .error err) : err = .presenceExhausted name := by
  have hnext : ∀ next : UInt64, (if next = maxUint64 then
      Except.error (RegistryError.presenceExhausted name) else .ok (next + 1)) = .error err →
      err = .presenceExhausted name := by
    intro next hfails
    split at hfails
    · exact (Except.error.inj hfails).symm
    · cases hfails
  exact hnext _ h

/-- A refused insertion has run out of a counter or of incarnation ids. -/
theorem insertLocked_no_cycle {r : Registry} {entry : Host} {id : Option String}
    {candidate : String} : r.insertLocked entry id ≠ .error (.hostCycle candidate) := by
  intro h
  unfold Registry.insertLocked Registry.consumeStampLocked at h
  cases hpeek : r.peekStampLocked entry with
  | some i =>
    rw [hpeek] at h
    cases h
  | none =>
    rw [hpeek] at h
    dsimp only [Registry.mintIdentityLocked, bind, Except.bind] at h
    cases hgeneration : r.nextGenerationLocked with
    | error err =>
      rw [hgeneration, nextGeneration_error hgeneration] at h
      cases h
    | ok generation =>
      rw [hgeneration] at h
      cases hpresence : r.nextPresenceLocked entry.name with
      | error err =>
        rw [hpresence, nextPresence_error hpresence] at h
        cases h
      | ok presence =>
        rw [hpresence] at h
        cases id <;> cases h

/-! ## Runs -/

theorem seedHighWater_edges (marks : List (String × HighWater)) (r : Registry) :
    (r.seedHighWater marks).edges = r.edges := by
  induction marks generalizing r with
  | nil => rfl
  | cons mark marks ih => exact ih (r.seedMark mark.1 mark.2)

theorem seed_edges (r : Registry) (entry : Host) (id : Option String) :
    (r.seed entry id).2.edges = r.edges := by
  unfold Registry.seed
  dsimp only
  split
  · rfl
  · split
    · rfl
    · unfold Registry.seedLocked
      split
      · rfl
      · dsimp only
        split
        · rfl
        · split <;> rfl

theorem boot_edges (seeds : List Seed) : (boot seeds).edges = [] := by
  unfold boot
  refine List.foldlRecOn (motive := fun r : Registry => r.edges = []) seeds _ rfl fun r h seed _ => ?_
  cases seed with
  | highWater marks => exact (seedHighWater_edges marks r).trans h
  | restored entry id => exact (seed_edges r entry id).trans h

theorem step_acyclic {r : Registry} (h : Acyclic (Edge r.upstreams)) (op : Op) :
    Acyclic (Edge (r.step op).2.upstreams) := by
  unfold Registry.step
  cases happly : r.apply op with
  | error err => exact h
  | ok result => exact (apply_relinks happly).acyclic h

theorem run_acyclic (seeds : List Seed) (ops : List Op) :
    Acyclic (Edge (run (boot seeds) ops).upstreams) := by
  have hboot : Acyclic (Edge (boot seeds).upstreams) := by
    have hnone : (boot seeds).upstreams = fun _ => [] := by
      funext x
      unfold Registry.upstreams
      rw [boot_edges]
      rfl
    rw [hnone]
    intro x hcycle
    obtain ⟨y, hedge, _⟩ := Relation.TransGen.head'_iff.mp hcycle
    cases hedge
  have hrun : ∀ r : Registry, Acyclic (Edge r.upstreams) → Acyclic (Edge (run r ops).upstreams) := by
    induction ops with
    | nil => exact fun r h => h
    | cons op ops ih => exact fun r h => ih _ (step_acyclic h op)
  exact hrun _ hboot

/-- The edges of any run are acyclic, and a host's new edges are refused where they would close a
cycle, and nowhere else; an insertion is of a host that is not registered, an attachment of one
that is. -/
theorem cycles_refused_exactly (seeds : List Seed) (ops : List Op) :
    Acyclic (Edge (run (boot seeds) ops).upstreams) ∧
    (∀ candidate upstreamNames,
      walk (run (boot seeds) ops).upstreams ((run (boot seeds) ops).names upstreamNames).length
        candidate upstreamNames ≠ .error .fuel) ∧
    (∀ (entry : Host) (upstreamNames names : List String) (id : Option String),
      validateEntry (normalize entry) = .ok () → normalizeUpstreams upstreamNames = .ok names →
      (run (boot seeds) ops).hosts (normalize entry).name = none →
      ((∃ candidate, (run (boot seeds) ops).addWithUpstreams entry upstreamNames id =
          .error (.hostCycle candidate)) ↔
        ¬ Acyclic (Edge (relinked (run (boot seeds) ops).upstreams (normalize entry).name names)))) ∧
    (∀ (name : String) (upstreamNames names : List String),
      validateName (trimSpace name) = .ok () → normalizeUpstreams upstreamNames = .ok names →
      ((run (boot seeds) ops).hosts (trimSpace name)).isSome →
      ((∃ candidate, (run (boot seeds) ops).setUpstreams name upstreamNames =
          .error (.hostCycle candidate)) ↔
        ¬ Acyclic (Edge (relinked (run (boot seeds) ops).upstreams (trimSpace name) names)))) := by
  have hacyclic := run_acyclic seeds ops
  generalize run (boot seeds) ops = r at hacyclic
  refine ⟨hacyclic, check_ends hacyclic, fun entry upstreamNames names id hvalid hnames hfree => ?_,
    fun name upstreamNames names hvalid hnames hlive => ?_⟩
  · have hduplicate : ¬ (r.hosts (normalize entry).name).isSome = true := by simp [hfree]
    unfold Registry.addWithUpstreams
    dsimp only
    rw [hvalid, hnames]
    dsimp only [bind, Except.bind]
    rw [if_neg hduplicate]
    rcases check_spec hacyclic (normalize entry).name names with ⟨hcheck, hnext⟩ | ⟨hcheck, hnext⟩
    · rw [hcheck]
      refine iff_of_false (fun ⟨candidate, hrefused⟩ => ?_) (not_not.mpr hnext)
      cases hinsert : r.insertLocked (normalize entry) id with
      | error err =>
        rw [hinsert] at hrefused
        cases hrefused
        exact insertLocked_no_cycle hinsert
      | ok r' =>
        rw [hinsert] at hrefused
        cases hrefused
    · rw [hcheck]
      exact iff_of_true ⟨_, rfl⟩ hnext
  · have hknown : ¬ (r.hosts (trimSpace name)).isNone = true := by
      intro hnone
      rw [Option.isNone_iff_eq_none.mp hnone] at hlive
      cases hlive
    unfold Registry.setUpstreams
    dsimp only
    rw [hvalid, hnames]
    dsimp only [bind, Except.bind]
    rw [if_neg hknown]
    rcases check_spec hacyclic (trimSpace name) names with ⟨hcheck, hnext⟩ | ⟨hcheck, hnext⟩
    · rw [hcheck]
      refine iff_of_false (fun ⟨candidate, hrefused⟩ => ?_) (not_not.mpr hnext)
      cases hrefused
    · rw [hcheck]
      exact iff_of_true ⟨_, rfl⟩ hnext

/-! ## Two hosts -/

/-- A host `b` under `a`, and `a` taken away. -/
def danglingOps : List Op :=
  [.addWithUpstreams { name := "a", ssh := "a" } [] (some "1"),
    .addWithUpstreams { name := "b", ssh := "b" } ["a"] (some "2"), .remove "a"]

theorem added_again_refused : ∃ candidate, (run (boot []) danglingOps).addWithUpstreams
    { name := "a", ssh := "a" } ["b"] (some "3") = .error (.hostCycle candidate) := by
  refine ((cycles_refused_exactly [] danglingOps).2.2.1 { name := "a", ssh := "a" } ["b"] ["b"]
    (some "3") (by decide) (by decide) (by decide)).mpr fun hacyclic => ?_
  have hout : Edge (relinked (run (boot []) danglingOps).upstreams "a" ["b"]) "a" "b" := by
    unfold Edge
    decide
  have hback : Edge (relinked (run (boot []) danglingOps).upstreams "a" ["b"]) "b" "a" := by
    unfold Edge
    decide
  exact hacyclic "a" (.head hout (.single hback))

/-- A host that is registered is refused as a duplicate, whatever its edges would close. -/
theorem duplicate_not_a_cycle :
    (run (boot []) [.addWithUpstreams { name := "a", ssh := "a" } [] (some "1")]).addWithUpstreams
        { name := "a", ssh := "a" } ["a"] (some "2") = .error (.duplicateHost "a") ∧
      ¬ Acyclic (Edge (relinked (run (boot [])
        [.addWithUpstreams { name := "a", ssh := "a" } [] (some "1")]).upstreams "a" ["a"])) := by
  refine ⟨rfl, fun hacyclic => hacyclic "a" (.single ?_)⟩
  unfold Edge
  decide

end Evener.Hostreg
