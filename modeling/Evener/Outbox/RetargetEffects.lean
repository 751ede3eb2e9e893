/-
  What a retarget does to a tidy database: it renumbers the records of one ref behind the last
  sequence of another, store after store (`Moves`).
-/
import Evener.Outbox.SettleEffects

namespace Evener.Outbox

open Evener.Lib JsValue
open List hiding lookup

/-! ## Numbering -/

section Numbering

variable {ν : Type}

theorem mem_numberedFrom {first n : Nat} {v : ν} {l : List ν} (h : (n, v) ∈ numberedFrom first l) :
    v ∈ l ∧ first ≤ n ∧ n < first + l.length := by
  induction l generalizing first with
  | nil => exact absurd h not_mem_nil
  | cons w l ih =>
    rw [length_cons]
    rcases mem_cons.mp h with h | h
    · obtain ⟨rfl, rfl⟩ := Prod.mk.inj h
      exact ⟨mem_cons_self, le_rfl, by omega⟩
    · obtain ⟨hv, hle, hlt⟩ := ih h
      exact ⟨mem_cons_of_mem _ hv, by omega, by omega⟩

theorem numberedFrom_inj {first n : Nat} {v w : ν} {l : List ν}
    (hv : (n, v) ∈ numberedFrom first l) (hw : (n, w) ∈ numberedFrom first l) : v = w := by
  induction l generalizing first with
  | nil => exact absurd hv not_mem_nil
  | cons u l ih =>
    rcases mem_cons.mp hv with hv | hv <;> rcases mem_cons.mp hw with hw | hw
    · exact (Prod.mk.inj hv).2.trans (Prod.mk.inj hw).2.symm
    · have := (mem_numberedFrom hw).2.1
      have := (Prod.mk.inj hv).1
      omega
    · have := (mem_numberedFrom hv).2.1
      have := (Prod.mk.inj hw).1
      omega
    · exact ih hv hw

theorem numberedFrom_covers (first : Nat) {v : ν} {l : List ν} (h : v ∈ l) :
    ∃ n, (n, v) ∈ numberedFrom first l := by
  induction l generalizing first with
  | nil => exact absurd h not_mem_nil
  | cons w l ih =>
    rcases mem_cons.mp h with rfl | h
    · exact ⟨first, mem_cons_self⟩
    · obtain ⟨n, hn⟩ := ih (first + 1) h
      exact ⟨n, mem_cons_of_mem _ hn⟩

end Numbering

/-! ## One store -/

/-- A store's records as they move: `move n` writes the record's new form with number `n`. -/
structure Mover (ν : Type) where
  key : ν → String
  toRecord : ν → MutationRecord
  toRef : String
  move : Nat → ν → ν
  key_eq : ∀ v, key v = (toRecord v).clientMutationId
  moved_key : ∀ n v, key (move n v) = key v
  moved_ref : ∀ n v, (toRecord (move n v)).targetRef = toRef
  moved_sequence : ∀ n v, (toRecord (move n v)).intentSequence = n

namespace Mover

variable {ν : Type} (m : Mover ν)

/-- The moved forms of the records that meet `p`, numbered from `first` in sequence order. -/
def moved (first : Nat) (p : ν → Bool) (l : List ν) : List ν :=
  (numberedFrom first (bySequence m.toRecord ((inKeyOrder m.key l).filter p))).map
    fun v => m.move v.1 v.2

/-- How many records move. -/
def count (p : ν → Bool) (l : List ν) : Nat :=
  (bySequence m.toRecord ((inKeyOrder m.key l).filter p)).length

/-- The store after the puts. -/
def store (first : Nat) (p : ν → Bool) (l : List ν) : List ν :=
  (m.moved first p l).foldl (fun l v => put m.key v l) l

variable {m} {first : Nat} {p : ν → Bool} {l : List ν}

theorem mem_eligible {v : ν} :
    v ∈ bySequence m.toRecord ((inKeyOrder m.key l).filter p) ↔ v ∈ l ∧ p v = true := by
  unfold bySequence
  rw [mem_insertionSort]
  exact mem_selection

theorem mem_moved {v' : ν} : v' ∈ m.moved first p l ↔ ∃ n v, v' = m.move n v ∧
    (n, v) ∈ numberedFrom first (bySequence m.toRecord ((inKeyOrder m.key l).filter p)) := by
  unfold moved
  rw [mem_map]
  constructor
  · rintro ⟨⟨n, v⟩, hmem, rfl⟩
    exact ⟨n, v, rfl, hmem⟩
  · rintro ⟨n, v, rfl, hmem⟩
    exact ⟨(n, v), hmem, rfl⟩

theorem moved_from {v' : ν} (h : v' ∈ m.moved first p l) :
    ∃ n, ∃ v ∈ l, p v = true ∧ v' = m.move n v ∧ first ≤ n ∧
      n < first + m.count p l := by
  obtain ⟨n, v, rfl, hmem⟩ := (mem_moved).mp h
  obtain ⟨hv, hle, hlt⟩ := mem_numberedFrom hmem
  obtain ⟨hv, hp⟩ := (mem_eligible).mp hv
  exact ⟨n, v, hv, hp, rfl, hle, hlt⟩

theorem moved_covers {v : ν} (hv : v ∈ l) (hp : p v = true) :
    ∃ n, m.move n v ∈ m.moved first p l := by
  obtain ⟨n, hn⟩ := numberedFrom_covers first (mem_eligible (m := m).mpr ⟨hv, hp⟩)
  exact ⟨n, (mem_moved).mpr ⟨n, v, rfl, hn⟩⟩

theorem moved_inj {v w : ν} (hv : v ∈ m.moved first p l) (hw : w ∈ m.moved first p l)
    (hseq : (m.toRecord v).intentSequence = (m.toRecord w).intentSequence) :
    m.key v = m.key w := by
  obtain ⟨n, v, rfl, hvn⟩ := (mem_moved).mp hv
  obtain ⟨n', w, rfl, hwn⟩ := (mem_moved).mp hw
  rw [m.moved_sequence, m.moved_sequence] at hseq
  subst hseq
  rw [numberedFrom_inj hvn hwn]

theorem map_key_moved : (m.moved first p l).map m.key =
    (bySequence m.toRecord ((inKeyOrder m.key l).filter p)).map m.key := by
  unfold moved
  generalize bySequence m.toRecord ((inKeyOrder m.key l).filter p) = eligible
  induction eligible generalizing first with
  | nil => rfl
  | cons v eligible ih =>
    rw [numberedFrom, map_cons, map_cons, map_cons, ih, m.moved_key]

theorem keysNodup_moved (h : KeysNodup m.key l) : KeysNodup m.key (m.moved first p l) := by
  have hkeys : KeysNodup m.key (bySequence m.toRecord ((inKeyOrder m.key l).filter p)) :=
    (keysNodup_selection h p).perm (perm_insertionSort _ _).symm
  unfold KeysNodup at hkeys ⊢
  rwa [map_key_moved]

theorem key_mem_moved (h : KeysNodup m.key l) {v : ν} (hv : v ∈ l) :
    m.key v ∈ (m.moved first p l).map m.key ↔ p v = true := by
  rw [map_key_moved]
  exact key_mem_selection h (fun _ => mem_eligible) hv

theorem store_eq (h : KeysNodup m.key l) : m.store first p l =
    l.map fun v => (lookup m.key (m.key v) (m.moved first p l)).getD v := by
  refine foldl_put h (keysNodup_moved h) fun v' hv' => ?_
  obtain ⟨n, v, hv, -, rfl, -⟩ := moved_from hv'
  rw [m.moved_key]
  exact mem_map_of_mem hv

/-- After the puts the store holds the moved records and the ones that did not qualify. -/
theorem mem_store (h : KeysNodup m.key l) {v' : ν} :
    v' ∈ m.store first p l ↔ v' ∈ m.moved first p l ∨ (v' ∈ l ∧ p v' = false) := by
  rw [store_eq h, mem_map]
  constructor
  · rintro ⟨v, hv, rfl⟩
    cases hfound : lookup m.key (m.key v) (m.moved first p l) with
    | some w => exact Or.inl (mem_of_lookup hfound)
    | none =>
      refine Or.inr ⟨hv, ?_⟩
      have hout : m.key v ∉ (m.moved first p l).map m.key := by
        intro hin
        obtain ⟨w, hw, hkey⟩ := mem_map.mp hin
        exact lookup_eq_none.mp hfound w hw hkey
      rw [key_mem_moved h hv] at hout
      simpa using hout
  · rintro (hv' | ⟨hv', hp⟩)
    · obtain ⟨n, v, hv, -, rfl, -⟩ := moved_from hv'
      refine ⟨v, hv, ?_⟩
      rw [(lookup_eq_some (keysNodup_moved h)).mpr ⟨hv', m.moved_key n v⟩]
      rfl
    · refine ⟨v', hv', ?_⟩
      have hnone : lookup m.key (m.key v') (m.moved first p l) = none := by
        refine lookup_eq_none.mpr fun w hw hkey => ?_
        have hin := (key_mem_moved h hv').mp (mem_map.mpr ⟨w, hw, hkey⟩)
        rw [hp] at hin
        exact Bool.false_ne_true hin
      rw [hnone]
      rfl

theorem keysNodup_store (h : KeysNodup m.key l) : KeysNodup m.key (m.store first p l) := by
  have hkeys : (m.store first p l).map m.key = l.map m.key := by
    rw [store_eq h, map_map]
    refine map_congr_left fun v _ => ?_
    cases hfound : lookup m.key (m.key v) (m.moved first p l) with
    | none => simp [hfound]
    | some w => simpa [hfound] using key_of_lookup hfound
  unfold KeysNodup
  rw [hkeys]
  exact h

/-- Every put of the list finds its index entry free. -/
def PutsFit (m : Mover ν) : List ν → List ν → Prop
  | _, [] => True
  | l, v :: rows => indexTaken m.toRecord (m.toRecord v) l = false ∧ PutsFit m (put m.key v l) rows

/-- Numbers behind everything the ref holds are free, one after the other. -/
theorem putsFit_numbered (eligible : List ν)
    (hbound : ∀ v ∈ l, (m.toRecord v).targetRef = m.toRef →
      (m.toRecord v).intentSequence < first) :
    PutsFit m l ((numberedFrom first eligible).map fun v => m.move v.1 v.2) := by
  induction eligible generalizing first l with
  | nil => exact trivial
  | cons v eligible ih =>
    refine ⟨indexTaken_eq_false fun w hw href hseq => ?_, ih fun w hw href => ?_⟩
    · rw [m.moved_ref] at href
      rw [m.moved_sequence] at hseq
      have := hbound w hw href
      omega
    · rcases mem_of_mem_put hw with rfl | hw
      · rw [m.moved_sequence]
        omega
      · have := hbound w hw href
        omega

end Mover

/-! ## The three stores -/

section Stores

variable {s : Db} {E : OutboxError → Db → Prop}

theorem wp_each_putOutbox {m : Mover MutationOutboxRecord} (hkey : m.key = outboxKey)
    (hrecord : m.toRecord = (·.toMutationRecord)) {Q : Unit → Db → Prop}
    (rows : List MutationOutboxRecord) (hfit : m.PutsFit s.outbox rows)
    (hQ : Q () { s with outbox := rows.foldl (fun l v => put m.key v l) s.outbox }) :
    Tx.wp (Tx.each putOutbox rows) s Q E := by
  induction rows generalizing s with
  | nil => exact hQ
  | cons r rows ih =>
    obtain ⟨hfree, hfit⟩ := hfit
    rw [hrecord] at hfree
    rw [Tx.each, Tx.wp_bind, putOutbox, Tx.wp_bind, Tx.wp_read, if_neg (by rw [hfree]; decide)]
    rw [hkey] at hfit hQ
    exact ih (hkey ▸ hfit) (hkey ▸ hQ)

theorem wp_each_putOptimistic {m : Mover MutationOptimisticRecord} (hkey : m.key = optimisticKey)
    (hrecord : m.toRecord = (·.toMutationRecord)) {Q : Unit → Db → Prop}
    (rows : List MutationOptimisticRecord) (hfit : m.PutsFit s.optimistic rows)
    (hQ : Q () { s with optimistic := rows.foldl (fun l v => put m.key v l) s.optimistic }) :
    Tx.wp (Tx.each putOptimistic rows) s Q E := by
  induction rows generalizing s with
  | nil => exact hQ
  | cons r rows ih =>
    obtain ⟨hfree, hfit⟩ := hfit
    rw [hrecord] at hfree
    rw [Tx.each, Tx.wp_bind, putOptimistic, Tx.wp_bind, Tx.wp_read,
      if_neg (by rw [hfree]; decide)]
    rw [hkey] at hfit hQ
    exact ih (hkey ▸ hfit) (hkey ▸ hQ)

theorem wp_each_putRecovery {Q : Unit → Db → Prop} (rows : List MutationRecoveryRecord)
    (hQ : Q () { s with recovery := rows.foldl (fun l v => put recoveryKey v l) s.recovery }) :
    Tx.wp (Tx.each putRecovery rows) s Q E := by
  induction rows generalizing s with
  | nil => exact hQ
  | cons r rows ih =>
    rw [Tx.each, Tx.wp_bind, wp_putRecovery]
    exact ih hQ

end Stores

/-! ## Retarget -/

/-- The destination of a retarget: its ref, the identity of the resumed thread and its epoch. -/
structure Destination where
  toRef : String
  identity : ResumedIdentity
  toStopEpoch : Nat

namespace Destination

variable (d : Destination)

def rows : Mover MutationOutboxRecord where
  key := outboxKey
  toRecord := (·.toMutationRecord)
  toRef := d.toRef
  move := movedRow d.toRef d.identity d.toStopEpoch
  key_eq _ := rfl
  moved_key _ _ := rfl
  moved_ref _ _ := rfl
  moved_sequence _ _ := rfl

def copies : Mover MutationOptimisticRecord where
  key := optimisticKey
  toRecord := (·.toMutationRecord)
  toRef := d.toRef
  move := movedCopy d.toRef d.identity
  key_eq _ := rfl
  moved_key _ _ := rfl
  moved_ref _ _ := rfl
  moved_sequence _ _ := rfl

def recoveries : Mover MutationRecoveryRecord where
  key := recoveryKey
  toRecord := (·.toMutationRecord)
  toRef := d.toRef
  move := movedRecovery d.toRef d.identity d.toStopEpoch
  key_eq _ := rfl
  moved_key _ _ := rfl
  moved_ref _ _ := rfl
  moved_sequence _ _ := rfl

end Destination

/-- The rows a retarget takes: those of the ref that are not canceled. -/
def retargetedRow (fromRef : String) (r : MutationOutboxRecord) : Bool :=
  r.targetRef = fromRef && r.state ≠ .canceled

section Bands

variable (fromRef : String) (d : Destination) (last : Nat) (s : Stores)

/-- The first number after the moved rows. -/
def firstCopy : Nat := last + 1 + d.rows.count (retargetedRow fromRef) s.outbox

/-- The first number after the moved copies. -/
def firstRecovery : Nat :=
  firstCopy fromRef d last s + d.copies.count (fun o => decide (o.targetRef = fromRef)) s.optimistic

/-- The last number a retarget gives. -/
def lastMoved : Nat :=
  firstRecovery fromRef d last s +
    d.recoveries.count (fun c => decide (c.targetRef = fromRef)) s.recovery - 1

def movedRows : List MutationOutboxRecord :=
  d.rows.moved (last + 1) (retargetedRow fromRef) s.outbox

def movedCopies : List MutationOptimisticRecord :=
  d.copies.moved (firstCopy fromRef d last s) (fun o => decide (o.targetRef = fromRef)) s.optimistic

def movedRecoveries : List MutationRecoveryRecord :=
  d.recoveries.moved (firstRecovery fromRef d last s) (fun c => decide (c.targetRef = fromRef))
    s.recovery

end Bands

/-- The stores after the puts of a retarget, numbered in turn behind `last`. -/
def retargeted (fromRef : String) (d : Destination) (last : Nat) (s : Db) : Db :=
  { s with
    outbox := d.rows.store (last + 1) (retargetedRow fromRef) s.outbox
    optimistic := d.copies.store (firstCopy fromRef d last s.toStores)
      (fun o => decide (o.targetRef = fromRef)) s.optimistic
    recovery := d.recoveries.store (firstRecovery fromRef d last s.toStores)
      (fun c => decide (c.targetRef = fromRef)) s.recovery }

section Retarget

variable {s : Db} {fromRef : String} {d : Destination} {last : Nat}

/-- A record in the band of numbers one store was given. -/
structure InBand (d : Destination) (lo hi : Nat) (a : MutationRecord) : Prop where
  ref : a.targetRef = d.toRef
  lower : lo ≤ a.intentSequence
  upper : a.intentSequence < hi

theorem inBand_moved {ν : Type} {m : Mover ν} (hm : m.toRef = d.toRef) {first : Nat}
    {p : ν → Bool} {l : List ν} {v : ν} (hv : v ∈ m.moved first p l) :
    InBand d first (first + m.count p l) (m.toRecord v) := by
  obtain ⟨n, w, -, -, rfl, hlo, hhi⟩ := Mover.moved_from hv
  refine ⟨(m.moved_ref n w).trans hm, ?_, ?_⟩
  · rwa [m.moved_sequence]
  · rwa [m.moved_sequence]

/-- A record after the puts is an old one, or a moved one in the band of its store. -/
theorem retargeted_record (h : Tidy s) {a : MutationRecord}
    (ha : a ∈ recordsOf (retargeted fromRef d last s).toStores) :
    a ∈ recordsOf s.toStores ∨
      (∃ r ∈ movedRows fromRef d last s.toStores, r.toMutationRecord = a) ∨
      (∃ o ∈ movedCopies fromRef d last s.toStores, o.toMutationRecord = a) ∨
      (∃ c ∈ movedRecoveries fromRef d last s.toStores, c.toMutationRecord = a) := by
  rcases mem_recordsOf.mp ha with ⟨r, hr, rfl⟩ | ⟨o, ho, rfl⟩ | ⟨c, hc, rfl⟩
  · rcases (Mover.mem_store (m := d.rows) h.outboxKeys).mp hr with hr | ⟨hr, -⟩
    · exact Or.inr (Or.inl ⟨r, hr, rfl⟩)
    · exact Or.inl (row_mem_recordsOf hr)
  · rcases (Mover.mem_store (m := d.copies) h.optimisticKeys).mp ho with ho | ⟨ho, -⟩
    · exact Or.inr (Or.inr (Or.inl ⟨o, ho, rfl⟩))
    · exact Or.inl (copy_mem_recordsOf ho)
  · rcases (Mover.mem_store (m := d.recoveries) h.recoveryKeys).mp hc with hc | ⟨hc, -⟩
    · exact Or.inr (Or.inr (Or.inr ⟨c, hc, rfl⟩))
    · exact Or.inl (recovery_mem_recordsOf hc)

theorem store_key {ν : Type} {m : Mover ν} {first : Nat} {p : ν → Bool} {l : List ν} {v' : ν}
    (h : KeysNodup m.key l) (hv' : v' ∈ m.store first p l) : ∃ v ∈ l, m.key v = m.key v' := by
  rcases (Mover.mem_store h).mp hv' with hv' | ⟨hv', -⟩
  · obtain ⟨n, v, hv, -, rfl, -⟩ := Mover.moved_from hv'
    exact ⟨v, hv, (m.moved_key n v).symm⟩
  · exact ⟨v', hv', rfl⟩

/-- Renumbering behind the last sequence keeps slots apart. -/
theorem Tidy.retargeted (h : Tidy s) (hlast : last = lastSequenceOf s.sequences d.toRef)
    {sequences : List TargetSequence}
    (hseq : ∀ ref, lastSequenceOf s.sequences ref ≤ lastSequenceOf sequences ref)
    (htop : lastMoved fromRef d last s.toStores ≤ lastSequenceOf sequences d.toRef) :
    Tidy { Outbox.retargeted fromRef d last s with sequences := sequences } := by
  have hold : ∀ a ∈ recordsOf s.toStores, a.targetRef = d.toRef → a.intentSequence ≤ last := by
    intro a ha href
    rw [hlast, ← href]
    exact h.bounded a ha
  have hrows : ∀ r ∈ movedRows fromRef d last s.toStores,
      InBand d (last + 1) (firstCopy fromRef d last s.toStores) r.toMutationRecord :=
    fun r hr => inBand_moved (m := d.rows) rfl hr
  have hcopies : ∀ o ∈ movedCopies fromRef d last s.toStores,
      InBand d (firstCopy fromRef d last s.toStores) (firstRecovery fromRef d last s.toStores)
        o.toMutationRecord :=
    fun o ho => inBand_moved (m := d.copies) rfl ho
  have hrecs : ∀ c ∈ movedRecoveries fromRef d last s.toStores,
      InBand d (firstRecovery fromRef d last s.toStores)
        (firstRecovery fromRef d last s.toStores +
          d.recoveries.count (fun c => decide (c.targetRef = fromRef)) s.recovery)
        c.toMutationRecord :=
    fun c hc => inBand_moved (m := d.recoveries) rfl hc
  have hbands : last + 1 ≤ firstCopy fromRef d last s.toStores ∧
      firstCopy fromRef d last s.toStores ≤ firstRecovery fromRef d last s.toStores := by
    unfold firstRecovery firstCopy
    omega
  refine ⟨Mover.keysNodup_store (m := d.rows) h.outboxKeys,
    Mover.keysNodup_store (m := d.copies) h.optimisticKeys,
    Mover.keysNodup_store (m := d.recoveries) h.recoveryKeys, ?_, ?_, ?_⟩
  · intro r hr c hc
    obtain ⟨r₀, hr₀, hrkey⟩ := store_key (m := d.rows) h.outboxKeys hr
    obtain ⟨c₀, hc₀, hckey⟩ := store_key (m := d.recoveries) h.recoveryKeys hc
    have hne := h.disjoint r₀ hr₀ c₀ hc₀
    intro heq
    exact hne (hrkey.trans (heq.trans hckey.symm))
  · -- two bands share no number, and within one band a number has one record
    have hoff : ∀ {lo hi lo' hi' : Nat} {a b : MutationRecord}, InBand d lo hi a →
        InBand d lo' hi' b → hi ≤ lo' → a.intentSequence ≠ b.intentSequence := by
      intro lo hi lo' hi' a b ha hb hle
      have := ha.upper
      have := hb.lower
      omega
    have hfar : ∀ {lo hi : Nat} {a b : MutationRecord}, a ∈ recordsOf s.toStores →
        InBand d lo hi b → last < lo → a.targetRef = b.targetRef →
        a.intentSequence ≠ b.intentSequence := by
      intro lo hi a b ha hb hlt href
      have := hold a ha (href.trans hb.ref)
      have := hb.lower
      omega
    intro a ha b hb href hsequence
    rcases retargeted_record h ha with ha | ⟨x, hx, rfl⟩ | ⟨x, hx, rfl⟩ | ⟨x, hx, rfl⟩ <;>
      rcases retargeted_record h hb with hb | ⟨y, hy, rfl⟩ | ⟨y, hy, rfl⟩ | ⟨y, hy, rfl⟩
    · exact h.slots a ha b hb href hsequence
    · exact absurd hsequence (hfar ha (hrows y hy) (by omega) href)
    · exact absurd hsequence (hfar ha (hcopies y hy) (by omega) href)
    · exact absurd hsequence (hfar ha (hrecs y hy) (by omega) href)
    · exact absurd hsequence.symm (hfar hb (hrows x hx) (by omega) href.symm)
    · exact Mover.moved_inj (m := d.rows) hx hy hsequence
    · exact absurd hsequence (hoff (hrows x hx) (hcopies y hy) le_rfl)
    · exact absurd hsequence (hoff (hrows x hx) (hrecs y hy) hbands.2)
    · exact absurd hsequence.symm (hfar hb (hcopies x hx) (by omega) href.symm)
    · exact absurd hsequence.symm (hoff (hrows y hy) (hcopies x hx) le_rfl)
    · exact Mover.moved_inj (m := d.copies) hx hy hsequence
    · exact absurd hsequence (hoff (hcopies x hx) (hrecs y hy) le_rfl)
    · exact absurd hsequence.symm (hfar hb (hrecs x hx) (by omega) href.symm)
    · exact absurd hsequence.symm (hoff (hrows y hy) (hrecs x hx) hbands.2)
    · exact absurd hsequence.symm (hoff (hcopies y hy) (hrecs x hx) le_rfl)
    · exact Mover.moved_inj (m := d.recoveries) hx hy hsequence
  · have hband : ∀ {lo hi : Nat} {a : MutationRecord}, InBand d lo hi a →
        hi ≤ lastMoved fromRef d last s.toStores + 1 →
        a.intentSequence ≤ lastSequenceOf sequences a.targetRef := by
      intro lo hi a ha hle
      rw [ha.ref]
      have := ha.upper
      omega
    have hfirst : 0 < firstRecovery fromRef d last s.toStores := by omega
    intro a ha
    rcases retargeted_record h ha with ha | ⟨x, hx, rfl⟩ | ⟨x, hx, rfl⟩ | ⟨x, hx, rfl⟩
    · exact le_trans (h.bounded a ha) (hseq _)
    · exact hband (hrows x hx) (by unfold lastMoved; omega)
    · exact hband (hcopies x hx) (by unfold lastMoved; omega)
    · exact hband (hrecs x hx) (by unfold lastMoved; omega)

/-- One store's part of a retarget. -/
structure Moved {ν : Type} (m : Mover ν) (p : ν → Bool) (l moved l' : List ν) : Prop where
  mem : ∀ v', v' ∈ l' ↔ v' ∈ moved ∨ (v' ∈ l ∧ p v' = false)
  source : ∀ v' ∈ moved, ∃ n, ∃ v ∈ l, p v = true ∧ v' = m.move n v
  covers : ∀ v ∈ l, p v = true → ∃ n, m.move n v ∈ moved

theorem Mover.moves {ν : Type} {m : Mover ν} {first : Nat} {p : ν → Bool} {l : List ν}
    (h : KeysNodup m.key l) : Moved m p l (m.moved first p l) (m.store first p l) := by
  refine ⟨fun v' => mem_store h, fun v' hv' => ?_, fun v hv hp => moved_covers hv hp⟩
  obtain ⟨n, v, hv, hp, rfl, -⟩ := moved_from hv'
  exact ⟨n, v, hv, hp, rfl⟩

/-- What a retarget between two refs leaves. -/
structure RetargetOf (s : Db) (fromRef : String) (d : Destination) (moved : RetargetedMutations)
    (s' : Db) : Prop where
  epoch : d.toStopEpoch = epochOf s.sequences d.toRef
  rows : Moved d.rows (retargetedRow fromRef) s.outbox moved.outbox s'.outbox
  copies : Moved d.copies (fun o => decide (o.targetRef = fromRef)) s.optimistic moved.optimistic
    s'.optimistic
  recoveries : Moved d.recoveries (fun c => decide (c.targetRef = fromRef)) s.recovery
    moved.recovery s'.recovery
  epochs : ∀ ref, epochOf s'.sequences ref = epochOf s.sequences ref
  drawn : s'.drawn = s.drawn
  tidy : Tidy s'

theorem retargetOutbox_spec (h : Tidy s) (fromRef toRef : String) (identity : ResumedIdentity)
    {E : OutboxError → Db → Prop} :
    Tx.wp (retargetOutbox fromRef toRef identity) s (fun moved s' =>
      (fromRef = toRef ∧ moved = ⟨[], [], []⟩ ∧ s' = s) ∨
        RetargetOf s fromRef ⟨toRef, identity, epochOf s.sequences toRef⟩ moved s') E := by
  unfold retargetOutbox
  split
  · next heq => exact Or.inl ⟨heq, rfl, rfl⟩
  · set d : Destination := ⟨toRef, identity, epochOf s.sequences toRef⟩ with hd
    set last := lastSequenceOf s.sequences toRef with hlast
    simp only [Tx.wp_bind, Tx.wp_read, wp_getAllOutbox, wp_getAllOptimistic, wp_getAllRecovery]
    have hbound : ∀ a ∈ recordsOf s.toStores, a.targetRef = toRef → a.intentSequence < last + 1 := by
      intro a ha href
      have := h.bounded a ha
      rw [href] at this
      omega
    refine wp_each_putOutbox (m := d.rows) rfl rfl _
      (Mover.putsFit_numbered _ fun r hr href => hbound _ (row_mem_recordsOf hr) href) ?_
    refine wp_each_putOptimistic (m := d.copies) rfl rfl _
      (Mover.putsFit_numbered _ fun o ho href => ?_) ?_
    · exact lt_of_lt_of_le (hbound _ (copy_mem_recordsOf ho) href) (Nat.le_add_right _ _)
    refine wp_each_putRecovery _ ?_
    have hspec : ∀ sequences : List TargetSequence,
        (∀ ref, epochOf sequences ref = epochOf s.sequences ref) →
        (∀ ref, lastSequenceOf s.sequences ref ≤ lastSequenceOf sequences ref) →
        lastMoved fromRef d last s.toStores ≤ lastSequenceOf sequences d.toRef →
        RetargetOf s fromRef d ⟨movedRows fromRef d last s.toStores,
          movedCopies fromRef d last s.toStores, movedRecoveries fromRef d last s.toStores⟩
          { retargeted fromRef d last s with sequences := sequences } := by
      intro sequences hepochs hseq htop
      exact ⟨rfl, Mover.moves h.outboxKeys, Mover.moves h.optimisticKeys,
        Mover.moves h.recoveryKeys, hepochs, rfl, h.retargeted hlast hseq htop⟩
    have hle : last ≤ lastMoved fromRef d last s.toStores := by
      unfold lastMoved firstRecovery firstCopy
      omega
    refine (Tx.wp_ite _ _).mpr ⟨fun _ => ?_, fun hsame => ?_⟩
    · refine Or.inr (hspec (withLastSequence toRef (lastMoved fromRef d last s.toStores)
        s.sequences) (epochOf_withLastSequence _ _ · _) (fun ref => ?_) ?_)
      · rw [lastSequenceOf_withLastSequence]
        split
        · next href => rwa [← href]
        · exact le_rfl
      · rw [lastSequenceOf_withLastSequence, if_pos rfl]
    · have hnone : lastMoved fromRef d last s.toStores = last := not_not.mp hsame
      exact Or.inr (hspec s.sequences (fun _ => rfl) (fun _ => le_rfl) hnone.le)

end Retarget

end Evener.Outbox
