/-
  When the order of a repair shows: exactly when two names that the schema does not declare stand
  for one argument that it declares and that is not given.
-/
import Evener.Tool.RepairOrder

namespace Evener.Tool.Repair
open Evener.Lib (lookup put erase Edit applyEdits KeysNodup keysNodup_cons)
open List hiding lookup

/-- The name is given and not declared, the argument it stands for is declared and not given. -/
def Eligible (params args : Object) (entry : String × String) : Prop :=
  (args.get entry.1).isSome ∧ isPropDeclared params entry.1 = false ∧
    isPropDeclared params entry.2 = true ∧ args.get entry.2 = none

instance (params args : Object) (entry : String × String) :
    Decidable (Eligible params args entry) := by
  unfold Eligible
  have : Decidable (args.get entry.2 = none) :=
    decidable_of_iff ((args.get entry.2).isNone) Option.isNone_iff_eq_none
  infer_instance

/-- No argument is given under two names of the alias table. -/
def OneAlias (params args : Object) : Prop :=
  ∀ a ∈ aliasTable, ∀ b ∈ aliasTable, Eligible params args a → Eligible params args b →
    a.2 = b.2 → a = b

def aliasChange (entry : String × String) : Change :=
  ⟨.changeAlias, entry.2, entry.1 ++ "→" ++ entry.2⟩

/-! ## One round -/

theorem get_put (m : Object) (key k : String) (v : Value) :
    Object.get (put Prod.fst (key, v) m) k = if key = k then some v else m.get k := by
  unfold Object.get
  rw [Lib.lookup_put]
  split <;> rfl

theorem get_erase (m : Object) (key k : String) :
    Object.get (erase Prod.fst key m) k = if k = key then none else m.get k := by
  unfold Object.get
  rw [Lib.lookup_erase]
  split <;> rfl

theorem applyAlias_of_eligible {params : Object} {st : Object × List Change}
    {entry : String × String} (h : Eligible params st.1 entry) :
    (∀ k, (applyAlias params st entry).1.get k =
      if k = entry.1 then none else if k = entry.2 then st.1.get entry.1 else st.1.get k) ∧
    (applyAlias params st entry).2 = st.2 ++ [aliasChange entry] := by
  obtain ⟨halias, hfree, hdeclared, hnone⟩ := h
  obtain ⟨v, hv⟩ := Option.isSome_iff_exists.mp halias
  have hstep : applyAlias params st entry =
      (erase Prod.fst entry.1 (put Prod.fst (entry.2, v) st.1), st.2 ++ [aliasChange entry]) := by
    unfold applyAlias
    dsimp only
    rw [hv]
    simp [hfree, hdeclared, hnone, aliasChange]
  rw [hstep]
  refine ⟨fun k => ?_, rfl⟩
  rw [get_erase, get_put, hv]
  simp only [eq_comm (a := entry.2)]

variable {st : Object × List Change} {params args m : Object} {entry a b : String × String}

theorem applyAlias_of_not_eligible (h : ¬ Eligible params st.1 entry) :
    applyAlias params st entry = st := by
  unfold applyAlias
  dsimp only
  cases hv : st.1.get entry.1 with
  | none => rfl
  | some v =>
    dsimp only
    split
    · rfl
    · rename_i hfree
      split
      · rfl
      · rename_i hdeclared
        split
        · rfl
        · rename_i hnone
          exact absurd ⟨by rw [hv]; rfl, by simpa using hfree, by simpa using hdeclared,
            by simpa using hnone⟩ h

theorem applyAlias_keyed (params : Object) (entry : String × String) (h : (Value.obj st.1).Keyed) :
    (Value.obj (applyAlias params st entry).1).Keyed := by
  unfold applyAlias
  dsimp only
  cases hv : st.1.get entry.1 with
  | none => exact h
  | some v =>
    dsimp only
    repeat' split
    · exact h
    · exact h
    · exact h
    · refine .obj (Lib.keysNodup_erase (Lib.keysNodup_put h.keysNodup _) _) ?_
      intro e he
      obtain ⟨x, hx, rfl⟩ := Option.map_eq_some_iff.mp hv
      have hmoved := h.entry (Lib.mem_of_lookup hx)
      rcases Lib.mem_of_mem_put (Lib.mem_erase.mp he).1 with rfl | he
      · exact hmoved
      · exact h.entry he

theorem applyAliases_keyed (v : Visits) (params : Object) (h : (Value.obj args).Keyed) :
    (Value.obj (applyAliases v params args).1).Keyed := by
  suffices hrun : ∀ (entries : List (String × String)) (st : Object × List Change),
      (Value.obj st.1).Keyed → (Value.obj (entries.foldl (applyAlias params) st).1).Keyed from
    hrun v.aliases (args, []) h
  intro entries
  induction entries with
  | nil => exact fun _ h => h
  | cons entry entries ih => exact fun st h => ih _ (applyAlias_keyed params entry h)

/-! ## The loop over the table -/

theorem alias_ne_canonical (ha : a ∈ aliasTable) (hb : b ∈ aliasTable) : a.1 ≠ b.2 := by
  have htable : ∀ a ∈ aliasTable, ∀ b ∈ aliasTable, a.1 ≠ b.2 := by decide
  exact htable a ha b hb

theorem alias_inj (ha : a ∈ aliasTable) (hb : b ∈ aliasTable) (h : a.1 = b.1) : a = b := by
  have htable : ∀ a ∈ aliasTable, ∀ b ∈ aliasTable, a.1 = b.1 → a = b := by decide
  exact htable a ha b hb h

/-- What the arguments are once the entries in `seen` are visited. -/
structure Renamed (params args : Object) (seen : List (String × String)) (m : Object) : Prop where
  moved : ∀ e ∈ seen, Eligible params args e → m.get e.1 = none ∧ m.get e.2 = args.get e.1
  kept : ∀ k, (∀ e ∈ seen, Eligible params args e → k ≠ e.1 ∧ k ≠ e.2) → m.get k = args.get k

/-- A round meets its entry as the arguments were given. -/
theorem Renamed.eligible_iff (hone : OneAlias params args) {seen : List (String × String)}
    (h : Renamed params args seen m) (hseen : ∀ e ∈ seen, e ∈ aliasTable)
    (hentry : entry ∈ aliasTable) (hnew : entry ∉ seen) :
    Eligible params m entry ↔ Eligible params args entry := by
  have halias : m.get entry.1 = args.get entry.1 := by
    apply h.kept
    intro e he _
    refine ⟨fun heq => hnew ?_, alias_ne_canonical hentry (hseen e he)⟩
    rwa [alias_inj hentry (hseen e he) heq]
  by_cases hother : ∃ e ∈ seen, Eligible params args e ∧ entry.2 = e.2
  · -- another name has taken the canonical one
    obtain ⟨e, he, helig, heq⟩ := hother
    have htaken : m.get entry.2 = args.get e.1 := heq ▸ (h.moved e he helig).2
    constructor
    · rintro ⟨-, -, -, hnone⟩
      have hsome := helig.1
      rw [← htaken, hnone] at hsome
      cases hsome
    · intro hentryElig
      have hsame := hone entry hentry e (hseen e he) hentryElig helig heq
      exact absurd (hsame ▸ he) hnew
  · have hcanonical : m.get entry.2 = args.get entry.2 := by
      apply h.kept
      intro e he helig
      exact ⟨(alias_ne_canonical (hseen e he) hentry).symm, fun heq => hother ⟨e, he, helig, heq⟩⟩
    unfold Eligible
    rw [halias, hcanonical]

theorem Renamed.step (hone : OneAlias params args) {seen : List (String × String)}
    (h : Renamed params args seen st.1) (hseen : ∀ e ∈ seen, e ∈ aliasTable)
    (hentry : entry ∈ aliasTable) (hnew : entry ∉ seen) :
    Renamed params args (entry :: seen) (applyAlias params st entry).1 ∧
      (applyAlias params st entry).2 =
        st.2 ++ if Eligible params args entry then [aliasChange entry] else [] := by
  have hiff := h.eligible_iff hone hseen hentry hnew
  by_cases helig : Eligible params args entry
  · obtain ⟨hget, hchanges⟩ :=
      applyAlias_of_eligible (hiff.mpr helig)
    rw [if_pos helig]
    refine ⟨⟨?_, ?_⟩, hchanges⟩
    · intro e he heElig
      rcases mem_cons.mp he with rfl | he
      · rw [hget, hget, if_pos rfl, if_neg (alias_ne_canonical hentry hentry).symm, if_pos rfl]
        refine ⟨rfl, h.kept _ fun x hx _ => ?_⟩
        exact ⟨fun heq => hnew (alias_inj hentry (hseen x hx) heq ▸ hx),
          alias_ne_canonical hentry (hseen x hx)⟩
      · obtain ⟨hgone, hmoved⟩ := h.moved e he heElig
        have hne : e.2 ≠ entry.2 := by
          intro heq
          have hsame := hone e (hseen e he) entry hentry heElig helig heq
          exact hnew (hsame ▸ he)
        rw [hget, hget, if_neg (alias_ne_canonical (hseen e he) hentry),
          if_neg (alias_ne_canonical hentry (hseen e he)).symm, if_neg hne]
        refine ⟨?_, hmoved⟩
        split
        · rfl
        · exact hgone
    · intro k hk
      obtain ⟨hne, hne'⟩ := hk entry mem_cons_self helig
      rw [hget, if_neg hne, if_neg hne']
      exact h.kept k fun e he => hk e (mem_cons_of_mem _ he)
  · rw [applyAlias_of_not_eligible fun hnow => helig (hiff.mp hnow), if_neg helig, append_nil]
    refine ⟨⟨?_, ?_⟩, rfl⟩
    · intro e he heElig
      rcases mem_cons.mp he with rfl | he
      · exact absurd heElig helig
      · exact h.moved e he heElig
    · intro k hk
      exact h.kept k fun e he => hk e (mem_cons_of_mem _ he)

theorem applyAliases_renamed (v : Visits) (hone : OneAlias params args) :
    Renamed params args v.aliases (applyAliases v params args).1 ∧
      (applyAliases v params args).2 =
        (v.aliases.filter fun e => Eligible params args e).map aliasChange := by
  suffices hrun : ∀ (rest seen : List (String × String)) (st : Object × List Change),
      Renamed params args seen st.1 → (∀ e ∈ rest ++ seen, e ∈ aliasTable) →
      (rest ++ seen).Nodup →
      Renamed params args (rest.reverse ++ seen) (rest.foldl (applyAlias params) st).1 ∧
        (rest.foldl (applyAlias params) st).2 =
          st.2 ++ (rest.filter fun e => Eligible params args e).map aliasChange by
    have hnodup : (v.aliases ++ []).Nodup := by
      rw [append_nil]
      exact v.aliases_perm.nodup_iff.mpr (by decide)
    have hall := hrun v.aliases [] (args, []) ⟨by simp, fun k _ => rfl⟩
      (fun e he => v.aliases_perm.mem_iff.mp (by simpa using he)) hnodup
    refine ⟨⟨fun e he => hall.1.moved e (by simpa using he), fun k hk => hall.1.kept k ?_⟩, hall.2⟩
    exact fun e he => hk e (by simpa using he)
  intro rest
  induction rest with
  | nil => exact fun seen st h _ _ => ⟨h, by simp⟩
  | cons entry rest ih =>
    intro seen st h hmem hnodup
    rw [cons_append, nodup_cons] at hnodup
    have hentry : entry ∈ aliasTable := hmem entry (by simp)
    obtain ⟨hnext, hchanges⟩ := h.step hone (fun e he => hmem e (by simp [he])) hentry
      fun hin => hnodup.1 (mem_append_right _ hin)
    obtain ⟨hfinal, hnotes⟩ := ih (entry :: seen) _ hnext
      (fun e he => hmem e (by
        simp only [mem_append, mem_cons] at he ⊢
        tauto))
      (nodup_middle.mpr (nodup_cons.mpr hnodup))
    rw [foldl_cons]
    refine ⟨by simpa using hfinal, ?_⟩
    rw [hnotes, hchanges, filter_cons]
    by_cases helig : Eligible params args entry
    · simp [helig]
    · simp [helig]

/-! ## One name for each argument -/

/-- The same entries, whatever their places. -/
theorem perm_of_get {m' : Object} (hm : KeysNodup Prod.fst m) (hm' : KeysNodup Prod.fst m')
    (h : ∀ k, m.get k = m'.get k) : m.Perm m' := by
  have hmem : ∀ {l : Object}, KeysNodup Prod.fst l → ∀ e : String × Value,
      e ∈ l ↔ l.get e.1 = some e.2 := by
    intro l hl e
    unfold Object.get
    rw [Option.map_eq_some_iff]
    constructor
    · exact fun he => ⟨e, (Lib.lookup_eq_some hl).mpr ⟨he, rfl⟩, rfl⟩
    · rintro ⟨x, hx, hxe⟩
      have hkey : x = e := Prod.ext (Lib.key_of_lookup hx) hxe
      exact hkey ▸ Lib.mem_of_lookup hx
  have hnodup : ∀ {l : Object}, KeysNodup Prod.fst l → l.Nodup := fun hl => List.Nodup.of_map _ hl
  rw [perm_ext_iff_of_nodup (hnodup hm) (hnodup hm')]
  intro e
  rw [hmem hm, hmem hm', h]

theorem get_of_perm {m' : Object} (hm : KeysNodup Prod.fst m) (h : m.Perm m') (k : String) :
    m.get k = m'.get k := by
  unfold Object.get
  congr 1
  apply Option.ext
  intro e
  rw [Lib.lookup_eq_some hm, Lib.lookup_eq_some (hm.perm h), h.mem_iff]

theorem applyAliases_shuffled (v w : Visits) (h : (Value.obj args).Keyed)
    (hone : OneAlias params args) :
    Shuffled (applyAliases v params args) (applyAliases w params args) := by
  obtain ⟨hv, hvChanges⟩ := applyAliases_renamed v hone
  obtain ⟨hw, hwChanges⟩ := applyAliases_renamed w hone
  have hsame : v.aliases.Perm w.aliases := v.aliases_perm.trans w.aliases_perm.symm
  constructor
  · apply perm_of_get (applyAliases_keyed v params h).keysNodup
      (applyAliases_keyed w params h).keysNodup
    intro k
    by_cases hmoved : ∃ e ∈ v.aliases, Eligible params args e ∧ (k = e.1 ∨ k = e.2)
    · obtain ⟨e, he, helig, hk⟩ := hmoved
      have hev := hv.moved e he helig
      have hew := hw.moved e (hsame.mem_iff.mp he) helig
      rcases hk with rfl | rfl
      · rw [hev.1, hew.1]
      · rw [hev.2, hew.2]
    · have hfree : ∀ e ∈ v.aliases, Eligible params args e → k ≠ e.1 ∧ k ≠ e.2 :=
        fun e he helig => ⟨fun heq => hmoved ⟨e, he, helig, .inl heq⟩,
          fun heq => hmoved ⟨e, he, helig, .inr heq⟩⟩
      rw [hv.kept k hfree, hw.kept k fun e he => hfree e (hsame.mem_iff.mpr he)]
  · rw [hvChanges, hwChanges]
    exact (hsame.filter _).map _

/-- With one name for each argument, a repair ends alike in every order. -/
theorem repairArgs_shuffled (rt : Runtime) (v w : Visits) {args : Args} (keep : List String)
    (hone : OneAlias params args.entries) :
    Shuffled (repairArgs rt v params args keep) (repairArgs rt w params args keep) := by
  have haliased := applyAliases_shuffled v w args.keyed hone
  have hkeyed := applyAliases_keyed v params args.keyed
  have hcoerced := applyCoercions_shuffled rt v w params hkeyed.keysNodup haliased.1
  have hkeyed' := applyCoercions_keyed rt v params hkeyed
  have hdropped := dropEmptyOptionals_shuffled v w params [] keep hkeyed' hcoerced.1
  have hkeys := dropEmptyOptionals_keysNodup v params [] keep hkeyed'.keysNodup
  have hknown := dropUnknown_shuffled v w params hkeys hdropped.1
  exact ⟨hknown.1, ((haliased.2.append hcoerced.2).append hdropped.2).append hknown.2⟩

theorem repairArgs_keysNodup (rt : Runtime) (v : Visits) (params : Object) (args : Args)
    (keep : List String) : KeysNodup Prod.fst (repairArgs rt v params args keep).1 := by
  have hkeyed := applyCoercions_keyed rt v params (applyAliases_keyed v params args.keyed)
  exact dropUnknown_keysNodup v params
    (dropEmptyOptionals_keysNodup v params [] keep hkeyed.keysNodup)

/-! ## Two names for one argument -/

theorem snd_applyEdits (edits : List (String × Edit Value Change)) (m : Object) :
    (applyEdits edits m).2 = edits.flatMap fun e => e.2.2 := by
  suffices hrun : ∀ st : Object × List Change,
      (edits.foldl Lib.applyEdit st).2 = st.2 ++ edits.flatMap fun e => e.2.2 from hrun (m, [])
  induction edits with
  | nil => simp
  | cons e edits ih =>
    intro st
    rw [foldl_cons, ih]
    simp [Lib.applyEdit]

theorem coercion_kind (rt : Runtime) (params : Object) (key : String) (raw : Value) :
    ∀ c ∈ (coercion rt params key raw).2, c.kind = .changeCoerceType := by
  unfold coercion
  dsimp only
  repeat' split
  all_goals simp

mutual

theorem dropEmptyOptionals_kind (v : Visits) (schema m : Object) (path : List PathStep)
    (keep : List String) :
    ∀ c ∈ (dropEmptyOptionals v schema m path keep).2, c.kind = .changeNormalizeDefault := by
  rw [dropEmptyOptionals_eq, snd_applyEdits]
  intro c hc
  obtain ⟨x, hx, hcx⟩ := mem_flatMap.mp hc
  obtain ⟨e, he, rfl⟩ := mem_map.mp hx
  have hin := (v.entries_perm .empties path m).mem_iff.mp he
  exact emptyOptional_kind v schema e.1 e.2 path keep c hcx
termination_by (sizeOf m, 0)
decreasing_by
  exact Prod.Lex.left _ _ (sizeOf_entry hin)

theorem emptyOptional_kind (v : Visits) (schema : Object) (key : String) (raw : Value)
    (path : List PathStep) (keep : List String) :
    ∀ c ∈ (emptyOptional v schema key raw path keep).2, c.kind = .changeNormalizeDefault := by
  rw [emptyOptional]
  split
  · rename_i p hp
    split
    · have hwithin := dropEmptyOptionalsWithin_kind v p raw (path ++ [⟨key, false⟩]) keep
      dsimp only
      split
      · simp
      · exact hwithin
    · dsimp only
      split <;> simp
  · simp
termination_by (sizeOf raw, 2)

theorem dropEmptyOptionalsWithin_kind (v : Visits) (schema : Object) (value : Value)
    (path : List PathStep) (keep : List String) :
    ∀ c ∈ (dropEmptyOptionalsWithin v schema value path keep).2,
      c.kind = .changeNormalizeDefault := by
  match value with
  | .obj m =>
    have hdrop := dropEmptyOptionals_kind v schema m path keep
    rw [dropEmptyOptionalsWithin]
    dsimp only
    split
    · simp
    · split
      · simp
      · exact hdrop
  | .arr elements =>
    rw [dropEmptyOptionalsWithin]
    split
    · rename_i items hitems
      unfold collect
      dsimp only
      split
      · simp
      · intro c hc
        obtain ⟨r, hr, hcr⟩ := mem_flatMap.mp hc
        obtain ⟨⟨⟨element, hmem⟩, i⟩, -, rfl⟩ := mem_map.mp hr
        exact dropEmptyOptionalsWithin_kind v items element (path ++ [⟨toString i, true⟩]) keep c hcr
    · simp
  | .null | .bool _ | .num _ | .str _ | .strs _ =>
    rw [dropEmptyOptionalsWithin]
    · simp
    all_goals
      intro _ heq
      cases heq
termination_by (sizeOf value, 1)

end

theorem dropUnknown_kind (v : Visits) (params args : Object) :
    ∀ c ∈ (dropUnknown v params args).2, c.kind = .changeDropUnknown := by
  unfold dropUnknown
  split
  · rw [snd_applyEdits]
    intro c hc
    obtain ⟨x, hx, hcx⟩ := mem_flatMap.mp hc
    obtain ⟨e, -, rfl⟩ := mem_map.mp hx
    revert hcx
    split <;> simp +contextual
  · simp

/-- The renamings of a repair are those of its first pass. -/
theorem aliasChange_mem_repairArgs {rt : Runtime} {v : Visits} {args : Args} {keep : List String} :
    aliasChange entry ∈ (repairArgs rt v params args keep).2 ↔
      aliasChange entry ∈ (applyAliases v params args.entries).2 := by
  unfold repairArgs
  simp only [mem_append]
  constructor
  · rintro (((h | h) | h) | h)
    · exact h
    · rw [applyCoercions, snd_applyEdits] at h
      obtain ⟨x, hx, hcx⟩ := mem_flatMap.mp h
      obtain ⟨e, -, rfl⟩ := mem_map.mp hx
      have hkind := coercion_kind rt params e.1 e.2 _ hcx
      cases hkind
    · have hkind := dropEmptyOptionals_kind _ _ _ _ _ _ h
      cases hkind
    · have hkind := dropUnknown_kind _ _ _ _ h
      cases hkind
  · exact fun h => .inl (.inl (.inl h))

theorem aliasChange_inj (h : aliasChange a = aliasChange b) : a = b := by
  have hfield : a.2 = b.2 := congrArg Change.field h
  have hdetail : a.1 ++ "→" ++ a.2 = b.1 ++ "→" ++ b.2 := congrArg Change.detail h
  rw [hfield, String.append_assoc, String.append_assoc] at hdetail
  exact Prod.ext (String.append_left_inj _ |>.mp hdetail) hfield

/-- Once an argument is there, no later round renames a name of it. -/
theorem taken_run {name : String × String} (hname : name ∈ aliasTable) :
    ∀ (rest : List (String × String)) (st : Object × List Change), (∀ e ∈ rest, e ∈ aliasTable) →
      (st.1.get name.2).isSome →
      aliasChange name ∈ (rest.foldl (applyAlias params) st).2 → aliasChange name ∈ st.2 := by
  intro rest
  induction rest with
  | nil => exact fun _ _ _ h => h
  | cons e rest ih =>
    intro st hmem htaken h
    have he := hmem e mem_cons_self
    by_cases helig : Eligible params st.1 e
    · obtain ⟨hget, hchanges⟩ := applyAlias_of_eligible helig
      have hother : e.2 ≠ name.2 := by
        intro heq
        have hnone := helig.2.2.2
        rw [heq] at hnone
        rw [hnone] at htaken
        cases htaken
      have hstill : ((applyAlias params st e).1.get name.2).isSome := by
        rw [hget, if_neg (alias_ne_canonical he hname).symm, if_neg hother.symm]
        exact htaken
      have hbefore := ih _ (fun x hx => hmem x (mem_cons_of_mem _ hx)) hstill h
      rw [hchanges, mem_append, mem_singleton] at hbefore
      rcases hbefore with hbefore | heq
      · exact hbefore
      · exact absurd (congrArg Change.field heq).symm hother
    · rw [foldl_cons, applyAlias_of_not_eligible helig] at h
      exact ih st (fun x hx => hmem x (mem_cons_of_mem _ hx)) htaken h

/-- The visits that meet `a` first and everything else in the order it is written down. -/
def visitsFrom (a : String × String) (ha : a ∈ aliasTable) : Visits where
  aliases := a :: aliasTable.erase a
  aliases_perm := (perm_cons_erase ha).symm
  entries := fun _ _ m => m
  entries_perm := fun _ _ m => List.Perm.refl m

/-- The name that is visited first is renamed, and no other name of its argument. -/
theorem aliasChange_visitsFrom {params args : Object} {a b : String × String} (ha : a ∈ aliasTable)
    (hb : b ∈ aliasTable) (helig : Eligible params args a) (hsame : a.2 = b.2) :
    aliasChange b ∈ (applyAliases (visitsFrom a ha) params args).2 ↔ b = a := by
  obtain ⟨hget, hchanges⟩ := @applyAlias_of_eligible params (args, []) a helig
  have hrest : ∀ e ∈ aliasTable.erase a, e ∈ aliasTable := fun e he => mem_of_mem_erase he
  have hrun : applyAliases (visitsFrom a ha) params args =
      (aliasTable.erase a).foldl (applyAlias params) (applyAlias params (args, []) a) := rfl
  rw [hrun]
  constructor
  · intro h
    have htaken : ((applyAlias params (args, []) a).1.get b.2).isSome := by
      rw [hget, ← hsame, if_neg (alias_ne_canonical ha ha).symm, if_pos rfl]
      exact helig.1
    have hfirst := taken_run hb _ _ hrest htaken h
    rw [hchanges, nil_append, mem_singleton] at hfirst
    exact aliasChange_inj hfirst
  · rintro rfl
    have hkept : ∀ (rest : List (String × String)) (st : Object × List Change),
        aliasChange b ∈ st.2 → aliasChange b ∈ (rest.foldl (applyAlias params) st).2 := by
      intro rest
      induction rest with
      | nil => exact fun _ h => h
      | cons e rest ih =>
        intro st h
        apply ih
        by_cases he : Eligible params st.1 e
        · rw [(applyAlias_of_eligible he).2]
          exact mem_append_left _ h
        · rw [applyAlias_of_not_eligible he]
          exact h
    apply hkept
    rw [hchanges]
    exact mem_append_right _ (mem_singleton.mpr rfl)

/-- Two names for one argument: the changes depend on which of them is visited first. -/
theorem repairArgs_race (rt : Runtime) {args : Args} (keep : List String) (ha : a ∈ aliasTable)
    (hb : b ∈ aliasTable) (hne : a ≠ b) (haElig : Eligible params args.entries a)
    (hbElig : Eligible params args.entries b) (hsame : a.2 = b.2) :
    aliasChange a ∈ (repairArgs rt (visitsFrom a ha) params args keep).2 ∧
      aliasChange a ∉ (repairArgs rt (visitsFrom b hb) params args keep).2 := by
  rw [aliasChange_mem_repairArgs, aliasChange_mem_repairArgs]
  constructor
  · exact (aliasChange_visitsFrom ha ha haElig rfl).mpr rfl
  · exact fun h => hne ((aliasChange_visitsFrom hb ha hbElig hsame.symm).mp h)

/-! ## The order shows exactly there -/

/-- A repair gives the same object and the same set of changes in every order. -/
def OrderFree (rt : Runtime) (params : Object) (args : Args) (keep : List String) : Prop :=
  ∀ v w : Visits,
    (∀ k, (repairArgs rt v params args keep).1.get k = (repairArgs rt w params args keep).1.get k) ∧
    ∀ c, c ∈ (repairArgs rt v params args keep).2 ↔ c ∈ (repairArgs rt w params args keep).2

theorem order_free_iff (rt : Runtime) (params : Object) (args : Args) (keep : List String) :
    OrderFree rt params args keep ↔ OneAlias params args.entries := by
  constructor
  · intro h a ha b hb haElig hbElig hsame
    by_contra hne
    obtain ⟨hin, hout⟩ := repairArgs_race rt keep ha hb hne haElig hbElig hsame
    exact hout (((h (visitsFrom a ha) (visitsFrom b hb)).2 _).mp hin)
  · intro hone v w
    obtain ⟨hobject, hchanges⟩ := repairArgs_shuffled rt v w keep hone
    exact ⟨get_of_perm (repairArgs_keysNodup rt v params args keep) hobject,
      fun c => hchanges.mem_iff⟩

/-- A file that is named twice. -/
def namedTwice : Args where
  entries := [("path", .str "a.txt"), ("filename", .str "b.txt")]
  keyed := .obj (by simp [KeysNodup]) (by
    intro e he
    simp only [mem_cons, not_mem_nil, or_false] at he
    rcases he with rfl | rfl <;> exact .str _)

/-- The schema of a tool that takes `file_path`. -/
def fileSchema : Object := [("properties", .obj [("file_path", .obj [])])]

theorem named_twice_races :
    ¬ ∀ (rt : Runtime) (params : Object) (args : Args) (keep : List String),
      OrderFree rt params args keep := by
  intro h
  have hpath : Eligible fileSchema namedTwice.entries ("path", "file_path") := by
    refine ⟨?_, ?_, ?_, ?_⟩ <;> rfl
  have hname : Eligible fileSchema namedTwice.entries ("filename", "file_path") := by
    refine ⟨?_, ?_, ?_, ?_⟩ <;> rfl
  have hpathIn : ("path", "file_path") ∈ aliasTable := by decide
  have hnameIn : ("filename", "file_path") ∈ aliasTable := by decide
  let rt : Runtime := ⟨id, id, fun _ => none⟩
  obtain ⟨hin, hout⟩ := repairArgs_race rt [] hpathIn hnameIn (by decide) hpath hname rfl
  exact hout (((h rt fileSchema namedTwice [] _ _).2 _).mp hin)

end Evener.Tool.Repair
