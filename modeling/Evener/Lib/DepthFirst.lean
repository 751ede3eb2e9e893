/-
  Depth-first search for a cycle, with white, gray and black nodes.

  A search that ends without a back edge leaves every black node behind its successors
  (`Finished`), so that a rank falls along every edge.
-/
import Mathlib.Data.List.Basic
import Mathlib.Logic.Relation

namespace Evener.Lib

open List

variable {α : Type} [DecidableEq α] (adj : α → List α)

/-- How a search ends early: at a back edge, or without fuel. -/
inductive Halt where
  | cycle
  | fuel

/-- Visit a white node; the result are the black nodes. -/
def dfs : Nat → List α → List α → α → Except Halt (List α)
  | 0, _, _, _ => .error .fuel
  | fuel + 1, gray, black, node =>
    ((adj node).foldlM (fun black neighbor =>
        if neighbor ∈ node :: gray then .error .cycle
        else if neighbor ∈ black then .ok black
        else dfs fuel (node :: gray) black neighbor) black).map fun black => node :: black

def search (fuel : Nat) (nodes : List α) : Except Halt (List α) :=
  nodes.foldlM (fun black node => if node ∈ black then .ok black else dfs adj fuel [] black node) []

/-- The nodes and their successors; no search visits more. -/
def reached (nodes : List α) : List α := nodes ++ nodes.flatMap adj

def hasBackEdge (nodes : List α) : Bool :=
  match search adj (reached adj nodes).length nodes with
  | .ok _ => false
  | .error _ => true

/-! ## Finished nodes -/

inductive Finished : List α → Prop where
  | nil : Finished []
  | cons (node : α) {black : List α} : (∀ next ∈ adj node, next ∈ black) → Finished black →
      Finished (node :: black)

/-- The number of the nodes finished no later than this one. -/
def rank (x : α) : List α → Nat
  | [] => 0
  | node :: black => if x ∈ black then rank x black else black.length + 1

theorem rank_le (x : α) (black : List α) : rank x black ≤ black.length := by
  induction black with
  | nil => exact Nat.le_refl 0
  | cons node black ih =>
    unfold rank
    split
    · exact Nat.le_succ_of_le ih
    · exact Nat.le_refl _

variable {adj}

omit [DecidableEq α] in
theorem Finished.mem {black : List α} (h : Finished adj black) {x y : α} (hx : x ∈ black)
    (hy : y ∈ adj x) : y ∈ black := by
  induction h with
  | nil => cases hx
  | cons _ hnext _ ih =>
    rcases mem_cons.mp hx with rfl | hx
    · exact mem_cons_of_mem _ (hnext y hy)
    · exact mem_cons_of_mem _ (ih hx)

theorem Finished.rank_lt {black : List α} (h : Finished adj black) {x y : α} (hx : x ∈ black)
    (hy : y ∈ adj x) : rank y black < rank x black := by
  induction h with
  | nil => cases hx
  | @cons node black hnext hfinished ih =>
    unfold rank
    by_cases hin : x ∈ black
    · rw [if_pos hin, if_pos (hfinished.mem hin hy)]
      exact ih hin
    · obtain rfl : x = node := (mem_cons.mp hx).resolve_right hin
      rw [if_neg hin, if_pos (hnext y hy)]
      exact Nat.lt_succ_of_le (rank_le y black)

/-! ## The search -/

/-- The nodes that are still white. -/
def whites (nodes gray black : List α) : Nat :=
  nodes.countP fun x => x ∉ gray ∧ x ∉ black

theorem whites_cons_lt {nodes gray black : List α} {node : α} (hmem : node ∈ nodes)
    (hgray : node ∉ gray) (hblack : node ∉ black) :
    whites nodes (node :: gray) black < whites nodes gray black := by
  induction nodes with
  | nil => cases hmem
  | cons x nodes ih =>
    have hle : ∀ l : List α, whites l (node :: gray) black ≤ whites l gray black := fun l =>
      countP_mono_left fun y _ hy => by
        simp only [decide_eq_true_eq, mem_cons, not_or] at hy ⊢
        exact ⟨hy.1.2, hy.2⟩
    have hle' := hle nodes
    unfold whites at ih hle' ⊢
    rw [countP_cons, countP_cons]
    by_cases hx : x = node
    · subst hx
      rw [if_neg (by simp), if_pos (by simp [hgray, hblack])]
      omega
    · have hlt := ih ((mem_cons.mp hmem).resolve_left fun h => hx h.symm)
      by_cases hwhite : x ∉ gray ∧ x ∉ black
      · rw [if_pos (by simp [hwhite, hx]), if_pos (by simp [hwhite])]
        omega
      · rw [if_neg (by simp; tauto), if_neg (by simp; tauto)]
        omega

theorem whites_mono {nodes gray black black' : List α} (h : black ⊆ black') :
    whites nodes gray black' ≤ whites nodes gray black :=
  countP_mono_left fun x _ hx => by
    simp only [decide_eq_true_eq] at hx ⊢
    exact ⟨hx.1, fun hmem => hx.2 (h hmem)⟩

/-- What a search that started from `black` leaves. -/
def Leaves (adj : α → List α) (black : List α) (nodes : List α) : Except Halt (List α) → Prop
  | .ok black' => Finished adj black' ∧ black ⊆ black' ∧ ∀ node ∈ nodes, node ∈ black'
  | .error halt => halt = .cycle

omit [DecidableEq α] in
/-- Visits in turn leave what each of them leaves. -/
theorem foldlM_leaves {f : List α → α → Except Halt (List α)} {nodes : List α}
    {black₀ black : List α} (hsub : black₀ ⊆ black) (hblack : Finished adj black)
    (h : ∀ node ∈ nodes, ∀ black, black₀ ⊆ black → Finished adj black →
      Leaves adj black [node] (f black node)) :
    Leaves adj black nodes (nodes.foldlM f black) := by
  induction nodes generalizing black with
  | nil => exact ⟨hblack, List.Subset.refl _, fun _ h => (nomatch h)⟩
  | cons node nodes ih =>
    rw [foldlM_cons]
    have hfirst := h node mem_cons_self black hsub hblack
    cases hf : f black node with
    | error halt =>
      rw [hf] at hfirst
      exact hfirst
    | ok black₁ =>
      rw [hf] at hfirst
      obtain ⟨hfinished, hgrown, hnode⟩ := hfirst
      have hrest := ih (List.Subset.trans hsub hgrown) hfinished
        fun n hn => h n (mem_cons_of_mem _ hn)
      show Leaves adj black (node :: nodes) (nodes.foldlM f black₁)
      cases hfold : nodes.foldlM f black₁ with
      | error halt =>
        rw [hfold] at hrest
        exact hrest
      | ok black₂ =>
        rw [hfold] at hrest
        obtain ⟨hfinished₂, hgrown₂, hnodes⟩ := hrest
        refine ⟨hfinished₂, List.Subset.trans hgrown hgrown₂, fun n hn => ?_⟩
        rcases mem_cons.mp hn with rfl | hn
        · exact hgrown₂ (hnode n (mem_singleton.mpr rfl))
        · exact hnodes n hn

theorem dfs_leaves {nodes : List α} (hclosed : ∀ x ∈ nodes, ∀ y ∈ adj x, y ∈ nodes) (fuel : Nat)
    {gray black : List α} {node : α} (hmem : node ∈ nodes) (hgray : node ∉ gray)
    (hwhite : node ∉ black) (hfuel : whites nodes gray black ≤ fuel) (hblack : Finished adj black) :
    Leaves adj black [node] (dfs adj fuel gray black node) := by
  induction fuel generalizing gray black node with
  | zero =>
    have hlt := whites_cons_lt hmem hgray hwhite
    omega
  | succ fuel ih =>
    have hlt := whites_cons_lt hmem hgray hwhite
    unfold dfs
    have hfold : Leaves adj black (adj node) ((adj node).foldlM (fun black neighbor =>
        if neighbor ∈ node :: gray then .error .cycle
        else if neighbor ∈ black then .ok black
        else dfs adj fuel (node :: gray) black neighbor) black) := by
      refine foldlM_leaves (List.Subset.refl _) hblack fun next hnext black' hsub hfinished => ?_
      by_cases hpath : next ∈ node :: gray
      · rw [if_pos hpath]
        exact rfl
      · rw [if_neg hpath]
        by_cases hdone : next ∈ black'
        · rw [if_pos hdone]
          refine ⟨hfinished, List.Subset.refl _, fun n hn => ?_⟩
          rw [mem_singleton.mp hn]
          exact hdone
        · rw [if_neg hdone]
          have hmono := @whites_mono _ _ nodes (node :: gray) _ _ hsub
          exact ih (hclosed node hmem next hnext) hpath hdone (by omega) hfinished
    generalize List.foldlM (m := Except Halt) _ black (adj node) = result at hfold ⊢
    cases result with
    | error halt => exact hfold
    | ok black' =>
      obtain ⟨hfinished, hgrown, hnext⟩ := hfold
      refine ⟨.cons node hnext hfinished, List.Subset.trans hgrown (subset_cons_self _ _), ?_⟩
      intro n hn
      rw [mem_singleton.mp hn]
      exact mem_cons_self

/-- The fuel suffices, and where no back edge is found the nodes are finished. -/
theorem search_leaves {nodes : List α} (hleaf : ∀ x ∉ nodes, adj x = []) :
    Leaves adj [] nodes (search adj (reached adj nodes).length nodes) := by
  have hclosed : ∀ x ∈ reached adj nodes, ∀ y ∈ adj x, y ∈ reached adj nodes := by
    intro x _ y hy
    by_cases hx : x ∈ nodes
    · exact mem_append_right _ (mem_flatMap.mpr ⟨x, hx, hy⟩)
    · rw [hleaf x hx] at hy
      cases hy
  refine foldlM_leaves (List.Subset.refl _) .nil fun node hnode black _ hfinished => ?_
  by_cases hdone : node ∈ black
  · rw [if_pos hdone]
    refine ⟨hfinished, List.Subset.refl _, fun n hn => ?_⟩
    rw [mem_singleton.mp hn]
    exact hdone
  · rw [if_neg hdone]
    exact dfs_leaves hclosed _ (mem_append_left _ hnode) not_mem_nil hdone
      countP_le_length hfinished

/-- Without a back edge some rank falls along every edge. -/
theorem rank_of_not_hasBackEdge {nodes : List α} (hleaf : ∀ x ∉ nodes, adj x = [])
    (h : hasBackEdge adj nodes = false) :
    ∃ r : α → Nat, ∀ x y, y ∈ adj x → r y < r x := by
  have hleaves := search_leaves hleaf
  unfold hasBackEdge at h
  cases hsearch : search adj (reached adj nodes).length nodes with
  | error halt =>
    rw [hsearch] at h
    cases h
  | ok black =>
    rw [hsearch] at hleaves
    obtain ⟨hfinished, _, hmem⟩ := hleaves
    refine ⟨fun x => rank x black, fun x y hy => ?_⟩
    have hx : x ∈ nodes := by
      by_contra hx
      rw [hleaf x hx] at hy
      cases hy
    exact hfinished.rank_lt (hmem x hx) hy

/-! ## Back edges -/

/-- The edges of a successor function. -/
def Edge (adj : α → List α) (x y : α) : Prop := y ∈ adj x

omit [DecidableEq α] in
/-- A fold that fails fails at one of its elements. -/
theorem foldlM_error {β : Type} {f : β → α → Except Halt β} {nodes : List α} {b : β} {halt : Halt}
    (h : nodes.foldlM f b = .error halt) : ∃ node ∈ nodes, ∃ b', f b' node = .error halt := by
  induction nodes generalizing b with
  | nil => cases h
  | cons node nodes ih =>
    rw [foldlM_cons] at h
    cases hnode : f b node with
    | error halt' =>
      rw [hnode] at h
      cases h
      exact ⟨node, mem_cons_self, b, hnode⟩
    | ok b' =>
      rw [hnode] at h
      obtain ⟨n, hn, hfails⟩ := ih h
      exact ⟨n, mem_cons_of_mem _ hn, hfails⟩

omit [DecidableEq α] in
theorem foldlM_keeps {β : Type} {f : β → α → Except Halt β} {P : β → Prop}
    (step : ∀ b a b', P b → f b a = .ok b' → P b') {nodes : List α} {b b' : β} (hb : P b)
    (h : nodes.foldlM f b = .ok b') : P b' := by
  induction nodes generalizing b with
  | nil =>
    cases h
    exact hb
  | cons node nodes ih =>
    rw [foldlM_cons] at h
    cases hnode : f b node with
    | error halt =>
      rw [hnode] at h
      cases h
    | ok b₁ =>
      rw [hnode] at h
      exact ih (step b node b₁ hb hnode) h

/-- A visit that stops at a back edge has gone from its node to the source of that edge; its
target is on the path, before the node or after it. -/
theorem dfs_cycle (fuel : Nat) {gray black : List α} {node : α}
    (h : dfs adj fuel gray black node = .error .cycle) :
    ∃ x y, Relation.ReflTransGen (Edge adj) node x ∧ Edge adj x y ∧
      (y ∈ gray ∨ Relation.ReflTransGen (Edge adj) y x) := by
  induction fuel generalizing gray black node with
  | zero => cases h
  | succ fuel ih =>
    unfold dfs at h
    have hfold : (adj node).foldlM (fun black neighbor =>
        if neighbor ∈ node :: gray then .error .cycle
        else if neighbor ∈ black then .ok black
        else dfs adj fuel (node :: gray) black neighbor) black = .error Halt.cycle := by
      cases hresult : (adj node).foldlM (fun black neighbor =>
          if neighbor ∈ node :: gray then .error Halt.cycle
          else if neighbor ∈ black then .ok black
          else dfs adj fuel (node :: gray) black neighbor) black with
      | error halt =>
        rw [hresult] at h
        cases h
        rfl
      | ok black' =>
        rw [hresult] at h
        cases h
    obtain ⟨next, hnext, black', hstep⟩ := foldlM_error hfold
    by_cases hpath : next ∈ node :: gray
    · refine ⟨node, next, .refl, hnext, ?_⟩
      rcases mem_cons.mp hpath with rfl | hgray
      · exact Or.inr .refl
      · exact Or.inl hgray
    · rw [if_neg hpath] at hstep
      by_cases hdone : next ∈ black'
      · rw [if_pos hdone] at hstep
        cases hstep
      · rw [if_neg hdone] at hstep
        obtain ⟨x, y, hx, hy, hback⟩ := ih hstep
        refine ⟨x, y, .head hnext hx, hy, ?_⟩
        rcases hback with hgray | hbehind
        · rcases mem_cons.mp hgray with rfl | hgray
          · exact Or.inr (.head hnext hx)
          · exact Or.inl hgray
        · exact Or.inr hbehind

/-- No node of the path is finished below it. -/
theorem dfs_spares (fuel : Nat) {gray black black' : List α} {node x : α}
    (h : dfs adj fuel gray black node = .ok black') (hgray : x ∈ gray) (hnode : x ≠ node)
    (hblack : x ∉ black) : x ∉ black' := by
  induction fuel generalizing gray black black' node with
  | zero => cases h
  | succ fuel ih =>
    unfold dfs at h
    cases hfold : (adj node).foldlM (fun black neighbor =>
        if neighbor ∈ node :: gray then .error Halt.cycle
        else if neighbor ∈ black then .ok black
        else dfs adj fuel (node :: gray) black neighbor) black with
    | error halt =>
      rw [hfold] at h
      cases h
    | ok black₁ =>
      rw [hfold] at h
      cases h
      have hkept : x ∉ black₁ := by
        refine foldlM_keeps (P := fun black => x ∉ black) (fun b next b' hb hstep => ?_) hblack hfold
        by_cases hpath : next ∈ node :: gray
        · rw [if_pos hpath] at hstep
          cases hstep
        · rw [if_neg hpath] at hstep
          by_cases hdone : next ∈ b
          · rw [if_pos hdone] at hstep
            cases hstep
            exact hb
          · rw [if_neg hdone] at hstep
            refine ih hstep (mem_cons_of_mem _ hgray) (fun heq => hpath ?_) hb
            rw [← heq]
            exact mem_cons_of_mem _ hgray
      exact fun hmem => (mem_cons.mp hmem).elim hnode hkept

omit [DecidableEq α] in
/-- What is finished holds everything that can be reached from it. -/
theorem Finished.reaches {black : List α} (h : Finished adj black) {x y : α} (hx : x ∈ black)
    (hy : Relation.ReflTransGen (Edge adj) x y) : y ∈ black := by
  induction hy with
  | refl => exact hx
  | tail _ hedge ih => exact h.mem ih hedge

/-! ## A candidate's new edges -/

section Candidate

variable {candidate : α} {targets : List α}

omit [DecidableEq α] in
def Acyclic (R : α → α → Prop) : Prop := ∀ x, ¬ Relation.TransGen R x x

/-- The walk below a candidate that is on the path from the start. -/
def walk (adj : α → List α) (fuel : Nat) (candidate : α) (targets : List α) :
    Except Halt (List α) :=
  targets.foldlM (fun black node =>
    if node ∈ [candidate] then .error .cycle
    else if node ∈ black then .ok black
    else dfs adj fuel [candidate] black node) []

/-- The walk ends, and it stops early where the candidate can be reached, and nowhere else. -/
theorem walk_spec {nodes : List α} (hclosed : ∀ x ∈ nodes, ∀ y ∈ adj x, y ∈ nodes)
    (hnodes : ∀ x ∈ targets, x ∈ nodes) (hacyclic : Acyclic (Edge adj)) :
    match walk adj nodes.length candidate targets with
    | .ok _ => ∀ x ∈ targets, ¬ Relation.ReflTransGen (Edge adj) x candidate
    | .error halt => halt = .cycle ∧
        ∃ x ∈ targets, Relation.ReflTransGen (Edge adj) x candidate := by
  have hleaves : Leaves adj [] targets (walk adj nodes.length candidate targets) := by
    refine foldlM_leaves (List.Subset.refl _) .nil fun node hnode black _ hfinished => ?_
    by_cases hpath : node ∈ [candidate]
    · rw [if_pos hpath]
      exact rfl
    · rw [if_neg hpath]
      by_cases hdone : node ∈ black
      · rw [if_pos hdone]
        refine ⟨hfinished, List.Subset.refl _, fun n hn => ?_⟩
        rw [mem_singleton.mp hn]
        exact hdone
      · rw [if_neg hdone]
        exact dfs_leaves hclosed _ (hnodes node hnode) hpath hdone countP_le_length hfinished
  cases hwalk : walk adj nodes.length candidate targets with
  | ok black =>
    rw [hwalk] at hleaves
    obtain ⟨hfinished, _, hmem⟩ := hleaves
    have hspared : candidate ∉ black := by
      refine foldlM_keeps (P := fun black => candidate ∉ black) (fun b node b' hb hstep => ?_)
        not_mem_nil hwalk
      by_cases hpath : node ∈ [candidate]
      · rw [if_pos hpath] at hstep
        cases hstep
      · rw [if_neg hpath] at hstep
        by_cases hdone : node ∈ b
        · rw [if_pos hdone] at hstep
          cases hstep
          exact hb
        · rw [if_neg hdone] at hstep
          have hne : candidate ≠ node := fun heq => hpath (heq ▸ mem_singleton.mpr rfl)
          exact dfs_spares _ hstep (mem_singleton.mpr rfl) hne hb
    exact fun x hx hreach => hspared (hfinished.reaches (hmem x hx) hreach)
  | error halt =>
    rw [hwalk] at hleaves
    obtain rfl : halt = .cycle := hleaves
    refine ⟨rfl, ?_⟩
    obtain ⟨node, hnode, black, hstep⟩ := foldlM_error hwalk
    refine ⟨node, hnode, ?_⟩
    by_cases hpath : node ∈ [candidate]
    · rw [mem_singleton.mp hpath]
    · rw [if_neg hpath] at hstep
      by_cases hdone : node ∈ black
      · rw [if_pos hdone] at hstep
        cases hstep
      · rw [if_neg hdone] at hstep
        obtain ⟨x, y, hx, hy, hback⟩ := dfs_cycle _ hstep
        rcases hback with hgray | hbehind
        · rw [← mem_singleton.mp hgray]
          exact hx.tail hy
        · exact absurd (Relation.TransGen.head' hy hbehind) (hacyclic x)

/-- The edges with those of the candidate replaced. -/
def relinked (adj : α → List α) (candidate : α) (targets : List α) (x : α) : List α :=
  if x = candidate then targets else adj x

theorem edge_relinked {x y : α} (h : x ≠ candidate) :
    Edge (relinked adj candidate targets) x y ↔ Edge adj x y := by
  unfold Edge relinked
  rw [if_neg h]

/-- The candidate's own edges make no difference to what reaches it. -/
theorem reaches_relinked {x : α} :
    Relation.ReflTransGen (Edge (relinked adj candidate targets)) x candidate ↔
      Relation.ReflTransGen (Edge adj) x candidate := by
  constructor <;> intro h
  · induction h using Relation.ReflTransGen.head_induction_on with
    | refl => exact .refl
    | @head a b hedge _ ih =>
      by_cases ha : a = candidate
      · rw [ha]
      · exact .head ((edge_relinked ha).mp hedge) ih
  · induction h using Relation.ReflTransGen.head_induction_on with
    | refl => exact .refl
    | @head a b hedge _ ih =>
      by_cases ha : a = candidate
      · rw [ha]
      · exact .head ((edge_relinked ha).mpr hedge) ih

/-- A cycle that the candidate is not on is one of the old edges. -/
theorem old_cycle {x y : α}
    (hcandidate : ¬ Relation.TransGen (Edge (relinked adj candidate targets)) candidate candidate)
    (hto : Relation.TransGen (Edge (relinked adj candidate targets)) x y)
    (hback : Relation.ReflTransGen (Edge (relinked adj candidate targets)) y x) :
    Relation.TransGen (Edge adj) x y := by
  induction hto with
  | single hedge =>
    refine .single ((edge_relinked ?_).mp hedge)
    rintro rfl
    exact hcandidate (Relation.TransGen.head' hedge hback)
  | tail hxb hedge ih =>
    refine (ih (.head hedge hback)).tail ((edge_relinked ?_).mp hedge)
    rintro rfl
    exact hcandidate (Relation.TransGen.head' hedge (hback.trans hxb.to_reflTransGen))

/-- New edges close a cycle where they lead back to the candidate along the old ones. -/
theorem acyclic_relinked (hacyclic : Acyclic (Edge adj)) :
    Acyclic (Edge (relinked adj candidate targets)) ↔
      ∀ x ∈ targets, ¬ Relation.ReflTransGen (Edge adj) x candidate := by
  constructor
  · intro h x hx hreach
    have hedge : Edge (relinked adj candidate targets) candidate x := by
      unfold Edge relinked
      rwa [if_pos rfl]
    exact h candidate (Relation.TransGen.head' hedge (reaches_relinked.mpr hreach))
  · intro h x hcycle
    have hcandidate :
        ¬ Relation.TransGen (Edge (relinked adj candidate targets)) candidate candidate := by
      intro hloop
      obtain ⟨y, hedge, hreach⟩ := Relation.TransGen.head'_iff.mp hloop
      unfold Edge relinked at hedge
      rw [if_pos rfl] at hedge
      exact h y hedge (reaches_relinked.mp hreach)
    exact hacyclic x (old_cycle hcandidate hcycle .refl)

end Candidate

omit [DecidableEq α] in
/-- A relation along which a rank falls has no cycle. -/
theorem not_transGen_of_rank {R : α → α → Prop} {r : α → Nat} (h : ∀ x y, R x y → r y < r x)
    (x : α) : ¬ Relation.TransGen R x x := by
  intro hcycle
  have hfalls : ∀ y, Relation.TransGen R x y → r y < r x := by
    intro y hy
    induction hy with
    | single hxy => exact h _ _ hxy
    | tail _ hyz ih => exact Nat.lt_trans (h _ _ hyz) ih
  exact Nat.lt_irrefl _ (hfalls x hcycle)

end Evener.Lib
