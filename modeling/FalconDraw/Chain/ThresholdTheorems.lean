/-
FalconDraw.Chain.ThresholdTheorems — activation does not depend on who asked before,
and it is final.

`windowState` is the state at the end of a window without a cache; every query
keeps the cache sound and answers with that value.
-/
import FalconDraw.Chain.MedianTimeTheorems
import FalconDraw.Chain.ThresholdState

namespace FalconDraw.Chain

open Lib Wire List

/-- A block tree: its nodes with their chains back to genesis, known by their
hashes, with times that obey the median rule. -/
structure HeaderTree where
  nodes      : Set (List HeaderInfo)
  ne_nil     : [] ∉ nodes
  parent_mem : ∀ node ∈ nodes, node.tail ≠ [] → node.tail ∈ nodes
  unique     : ∀ node ∈ nodes, ∀ other ∈ nodes,
    node.head?.map HeaderInfo.hash = other.head?.map HeaderInfo.hash → node = other
  rises      : ∀ node ∈ nodes, TimesRise node

namespace HeaderTree

variable {tree : HeaderTree} {node : List HeaderInfo}

theorem drop_mem (h : node ∈ tree.nodes) (d : Nat) (hne : node.drop d ≠ []) :
    node.drop d ∈ tree.nodes := by
  induction d with
  | zero => exact h
  | succ d ih =>
    have htail : (node.drop d).tail = node.drop (d + 1) := by rw [tail_drop]
    have hprev : node.drop d ≠ [] := by
      grind
    rw [← htail] at hne ⊢
    exact tree.parent_mem _ (ih hprev) hne

end HeaderTree

section
variable {checker : ThresholdChecker} {tree : HeaderTree} {cache : ThresholdCache}

def windowState (checker : ThresholdChecker) : Nat → List HeaderInfo → Check ThresholdState
  | 0, _ => .ok .defined
  | k + 1, node =>
    if !checker.hasStarted node then .ok .defined
    else windowState checker k (node.drop checker.minerConfirmationWindow) >>=
      fun state => thresholdStateTransition checker state node

def stateAfter (checker : ThresholdChecker) (node : List HeaderInfo) : Check ThresholdState :=
  if checker.forceActive node then .ok .active
  else if node.length < checker.minerConfirmationWindow then .ok .defined
  else windowState checker (node.length / checker.minerConfirmationWindow)
    (node.drop (node.length % checker.minerConfirmationWindow))

/-- What the cache says about nodes of the tree is right. -/
def SoundCache (checker : ThresholdChecker) (tree : HeaderTree) (cache : ThresholdCache) : Prop :=
  ∀ node ancestors, node :: ancestors ∈ tree.nodes → ∀ state, cache.lookup node.hash = some state →
    ∃ k, (node :: ancestors).length = k * checker.minerConfirmationWindow ∧
      windowState checker k (node :: ancestors) = .ok state

theorem soundCache_empty : SoundCache checker tree ThresholdCache.empty :=
  fun _ _ _ _ h => nomatch h

theorem SoundCache.update (h : SoundCache checker tree cache) {node : HeaderInfo}
    {ancestors : List HeaderInfo} (hnode : node :: ancestors ∈ tree.nodes) {k : Nat}
    (hlen : (node :: ancestors).length = k * checker.minerConfirmationWindow)
    {state : ThresholdState} (hstate : windowState checker k (node :: ancestors) = .ok state) :
    SoundCache checker tree (cache.update node.hash state) := by
  intro other others hother s hlookup
  rw [ThresholdCache.lookup_update] at hlookup
  by_cases hhash : other.hash = node.hash
  · rw [if_pos hhash] at hlookup
    cases hlookup
    have hsame := tree.unique _ hother _ hnode (by rw [head?_cons, head?_cons]; simp [hhash])
    rw [hsame]
    exact ⟨k, hlen, hstate⟩
  · rw [if_neg hhash] at hlookup
    exact h other others hother s hlookup

theorem SoundCache.lookup_eq (h : SoundCache checker tree cache) {node : HeaderInfo}
    {ancestors : List HeaderInfo} (hnode : node :: ancestors ∈ tree.nodes) {k : Nat}
    (hlen : (node :: ancestors).length = k * checker.minerConfirmationWindow)
    {state : ThresholdState} (hlookup : cache.lookup node.hash = some state) :
    windowState checker k (node :: ancestors) = .ok state := by
  obtain ⟨k', hlen', hstate⟩ := h node ancestors hnode state hlookup
  have hk : k' = k := Nat.eq_of_mul_eq_mul_right checker.window_pos (hlen'.symm.trans hlen)
  rw [← hk]
  exact hstate

/-- The two loops together compute the state at a window end and keep the cache
sound. -/
theorem walkBack_replay : ∀ {k fuel : Nat} {node : List HeaderInfo} {cache : ThresholdCache},
    k ≤ fuel → node.length = k * checker.minerConfirmationWindow →
    (node ≠ [] → node ∈ tree.nodes) → SoundCache checker tree cache →
    ∃ cache' needed stop base, walkBack checker fuel node cache = (cache', needed, stop) ∧
      cachedState cache' stop = .ok base ∧
      (replay checker base cache' needed).1 = windowState checker k node ∧
      SoundCache checker tree (replay checker base cache' needed).2 := by
  intro k
  induction k with
  | zero =>
    intro fuel node cache _ hlen _ hsound
    rw [Nat.zero_mul, length_eq_zero_iff] at hlen
    subst hlen
    refine ⟨cache, [], [], .defined, ?_, rfl, rfl, hsound⟩
    cases fuel <;> rfl
  | succ k ih =>
    intro fuel node cache hfuel hlen hmem hsound
    have hpos := checker.window_pos
    rw [Nat.succ_mul] at hlen
    cases node with
    | nil =>
      rw [length_nil] at hlen
      omega
    | cons node ancestors =>
      have hmem := hmem (cons_ne_nil _ _)
      have hlen' : (node :: ancestors).length = (k + 1) * checker.minerConfirmationWindow := by
        rw [Nat.succ_mul, hlen]
      obtain ⟨fuel, rfl⟩ : ∃ f, fuel = f + 1 := ⟨fuel - 1, by omega⟩
      cases hlookup : cache.lookup node.hash with
      | some state =>
        refine ⟨cache, [], node :: ancestors, state, ?_, ?_, ?_, hsound⟩
        · simp only [walkBack, hlookup]
        · simp only [cachedState, hlookup]
        · exact (hsound.lookup_eq hmem hlen' hlookup).symm
      | none =>
        by_cases hstarted : checker.hasStarted (node :: ancestors) = true
        · -- the window before this one, and then one transition
          have hdrop : ((node :: ancestors).drop checker.minerConfirmationWindow).length =
              k * checker.minerConfirmationWindow := by
            rw [length_drop]
            omega
          obtain ⟨cache', needed, stop, base, hwalk, hbase, hstate, hkept⟩ :=
            ih (show k ≤ fuel by omega) hdrop
              (fun hne => HeaderTree.drop_mem hmem checker.minerConfirmationWindow hne) hsound
          refine ⟨cache', (node, ancestors) :: needed, stop, base, ?_, hbase, ?_⟩
          · simp only [walkBack, hlookup, hstarted, Bool.not_true, Bool.false_eq_true, if_false,
              hwalk]
          · have hwindow : windowState checker (k + 1) (node :: ancestors) =
                (replay checker base cache' needed).1 >>=
                  fun state => thresholdStateTransition checker state (node :: ancestors) := by
              rw [windowState, if_neg (by simp [hstarted]), hstate]
            rw [replay]
            cases hreplay : replay checker base cache' needed with
            | mk result cache'' =>
              rw [hreplay] at hkept hwindow
              cases result with
              | error e => exact ⟨hwindow.symm, hkept⟩
              | ok state =>
                dsimp only [bind, Except.bind] at hwindow ⊢
                cases htransition : thresholdStateTransition checker state (node :: ancestors) with
                | error e => exact ⟨(hwindow.trans htransition).symm, hkept⟩
                | ok next =>
                  rw [htransition] at hwindow
                  exact ⟨hwindow.symm, hkept.update hmem hlen' hwindow⟩
        · have hwindow : windowState checker (k + 1) (node :: ancestors) = .ok .defined := by
            rw [windowState, if_pos (by simp [hstarted])]
          refine ⟨cache.update node.hash .defined, [], node :: ancestors, .defined, ?_, ?_,
            hwindow.symm, hsound.update hmem hlen' hwindow⟩
          · simp only [walkBack, hlookup, hstarted, Bool.not_false, if_true]
          · simp only [cachedState, ThresholdCache.lookup_update, if_true]

theorem length_windowEnd (checker : ThresholdChecker) (node : List HeaderInfo) :
    (node.drop (node.length % checker.minerConfirmationWindow)).length =
      node.length / checker.minerConfirmationWindow * checker.minerConfirmationWindow := by
  have := Nat.div_add_mod node.length checker.minerConfirmationWindow
  rw [length_drop, Nat.mul_comm]
  omega

theorem thresholdState_eq (hsound : SoundCache checker tree cache) {node : List HeaderInfo}
    (hnode : node ∈ tree.nodes) :
    (thresholdState checker node cache).1 = stateAfter checker node ∧
      SoundCache checker tree (thresholdState checker node cache).2 := by
  rw [thresholdState, stateAfter]
  by_cases hforce : checker.forceActive node = true
  · rw [if_pos hforce, if_pos hforce]
    exact ⟨rfl, hsound⟩
  rw [if_neg hforce, if_neg hforce]
  by_cases hshort : node.length < checker.minerConfirmationWindow
  · rw [if_pos hshort, if_pos hshort]
    exact ⟨rfl, hsound⟩
  rw [if_neg hshort, if_neg hshort]
  have hlen := length_windowEnd checker node
  have hfuel : node.length / checker.minerConfirmationWindow ≤
      (node.drop (node.length % checker.minerConfirmationWindow)).length := by
    rw [hlen]
    exact Nat.le_mul_of_pos_right _ checker.window_pos
  obtain ⟨cache', needed, stop, base, hwalk, hbase, hstate, hkept⟩ :=
    walkBack_replay hfuel hlen (fun hne => HeaderTree.drop_mem hnode _ hne) hsound
  dsimp only
  rw [hwalk]
  dsimp only
  rw [hbase]
  exact ⟨hstate, hkept⟩

theorem runQueries_eq {queries : List (List HeaderInfo)} (hsound : SoundCache checker tree cache)
    (hqueries : ∀ node ∈ queries, node ∈ tree.nodes) :
    runQueries checker queries cache = queries.map (stateAfter checker) := by
  induction queries generalizing cache with
  | nil => rfl
  | cons node queries ih =>
    obtain ⟨hstate, hkept⟩ := thresholdState_eq hsound (hqueries node mem_cons_self)
    rw [runQueries, map_cons, hstate,
      ih hkept fun other hother => hqueries other (mem_cons_of_mem _ hother)]

end

/-! ## Deployments by median time -/

namespace ConsensusDeployment

variable {d : ConsensusDeployment} {p : VotingParams} {node older : List HeaderInfo}

theorem medianReached_mono {time : Int} (hrise : TimesRise node) (hsuffix : older <:+ node)
    (h : medianReached time older = true) : medianReached time node = true := by
  match older, h with
  | first :: second :: rest, h =>
    have hlen := hsuffix.length_le
    have hmedian := hrise.median_mono hsuffix (cons_ne_nil _ _)
    match node, hlen with
    | a :: b :: tail, _ =>
      simp only [medianReached, decide_eq_true_eq] at h ⊢
      exact h.trans hmedian

theorem hasStarted_mono (hrise : TimesRise node) (hsuffix : older <:+ node)
    (h : d.hasStarted older = true) : d.hasStarted node = true := by
  unfold hasStarted at h ⊢
  cases hstart : d.startTime with
  | none => rfl
  | some startTime =>
    rw [hstart] at h
    exact medianReached_mono hrise hsuffix h

theorem forceActive_mono (hsuffix : older <:+ node) (h : (d.checker p).forceActive older = true) :
    (d.checker p).forceActive node = true := by
  grind [checker]

theorem countVotes_ok : ∀ {n : Nat} {node : List HeaderInfo}, n ≤ node.length →
    ∃ count, countVotes (d.checker p) n node = .ok count
  | 0, _, _ => ⟨0, rfl⟩
  | n + 1, header :: ancestors, h => by
    obtain ⟨count, hcount⟩ := countVotes_ok (show n ≤ ancestors.length by simpa using h)
    refine ⟨count + if d.condition header then 1 else 0, ?_⟩
    rw [countVotes, hcount]
    rfl

theorem transition_ok (h : p.minerConfirmationWindow ≤ node.length) (state : ThresholdState) :
    ∃ next, thresholdStateTransition (d.checker p) state node = .ok next := by
  obtain ⟨count, hcount⟩ : ∃ count, countVotes (d.checker p)
      (d.checker p).minerConfirmationWindow node = .ok count := countVotes_ok h
  unfold thresholdStateTransition
  cases state with
  | defined =>
    dsimp only
    split
    · exact ⟨_, rfl⟩
    · split <;> exact ⟨_, rfl⟩
  | started =>
    dsimp only
    split
    · exact ⟨_, rfl⟩
    · rw [hcount]
      dsimp only [bind, Except.bind]
      split
      · exact ⟨_, rfl⟩
      · split <;> exact ⟨_, rfl⟩
  | lockedIn =>
    dsimp only
    split <;> exact ⟨_, rfl⟩
  | active => exact ⟨_, rfl⟩
  | failed => exact ⟨_, rfl⟩

theorem windowState_ok : ∀ {k : Nat} {node : List HeaderInfo},
    node.length = k * p.minerConfirmationWindow →
    ∃ state, windowState (d.checker p) k node = .ok state
  | 0, _, _ => ⟨_, rfl⟩
  | k + 1, node, h => by
    rw [Nat.succ_mul] at h
    rw [windowState]
    split
    · exact ⟨_, rfl⟩
    · have hdrop : (node.drop p.minerConfirmationWindow).length =
          k * p.minerConfirmationWindow := by
        rw [length_drop]
        omega
      obtain ⟨state, hstate⟩ : ∃ state, windowState (d.checker p) k
          (node.drop (d.checker p).minerConfirmationWindow) = .ok state := windowState_ok hdrop
      obtain ⟨next, hnext⟩ : ∃ next, thresholdStateTransition (d.checker p) state node =
          .ok next := transition_ok (by omega) state
      rw [hstate]
      exact ⟨next, hnext⟩

theorem stateAfter_ok (d : ConsensusDeployment) (p : VotingParams) (node : List HeaderInfo) :
    ∃ state, stateAfter (d.checker p) node = .ok state := by
  unfold stateAfter
  split
  · exact ⟨_, rfl⟩
  · split
    · exact ⟨_, rfl⟩
    · exact windowState_ok (length_windowEnd (d.checker p) node)

theorem started_of_active {k : Nat} (h : windowState (d.checker p) k node = .ok .active) :
    d.hasStarted node = true := by
  cases k with
  | zero => cases h
  | succ k =>
    rw [windowState] at h
    split at h
    · cases h
    · next hstarted =>
      have : (d.checker p).hasStarted node = true := by simpa using hstarted
      exact this

theorem windowState_active : ∀ {k' k : Nat} {node older : List HeaderInfo}, TimesRise node →
    older <:+ node → older.length = k * p.minerConfirmationWindow →
    node.length = k' * p.minerConfirmationWindow → windowState (d.checker p) k older = .ok .active →
    windowState (d.checker p) k' node = .ok .active := by
  intro k'
  induction k' with
  | zero =>
    intro k node older _ hsuffix hlen hlen' hactive
    have hle := hsuffix.length_le
    rw [Nat.zero_mul] at hlen'
    have hk : k = 0 := by
      by_contra hne
      have := Nat.mul_pos (Nat.pos_of_ne_zero hne) p.window_pos
      omega
    subst hk
    cases hactive
  | succ k' ih =>
    intro k node older hrise hsuffix hlen hlen' hactive
    rcases Nat.lt_or_ge older.length node.length with hshorter | hsame
    · -- an earlier window: active one window before, and active stays active
      have hstarted : (d.checker p).hasStarted node = true :=
        hasStarted_mono hrise hsuffix (started_of_active hactive)
      have hk : k < k' + 1 := by
        by_contra hge
        have := Nat.mul_le_mul_right p.minerConfirmationWindow (not_lt.mp hge)
        omega
      have hwindow := Nat.mul_le_mul_right p.minerConfirmationWindow (Nat.le_of_lt_succ hk)
      rw [Nat.succ_mul] at hlen'
      have hdrop : (node.drop p.minerConfirmationWindow).length =
          k' * p.minerConfirmationWindow := by
        rw [length_drop]
        omega
      have holder : older <:+ node.drop p.minerConfirmationWindow :=
        suffix_of_suffix_length_le hsuffix (drop_suffix _ _) (by omega)
      have hprev : windowState (d.checker p) k'
          (node.drop (d.checker p).minerConfirmationWindow) = .ok .active :=
        ih (hrise.of_suffix (drop_suffix _ _)) holder hlen hdrop hactive
      rw [windowState, if_neg (by simp [hstarted]), hprev]
      rfl
    · have heq : older = node := hsuffix.eq_of_length (by have := hsuffix.length_le; omega)
      have hk : k = k' + 1 :=
        Nat.eq_of_mul_eq_mul_right p.window_pos (by rw [← hlen, ← hlen', heq])
      rw [← heq, ← hk]
      exact hactive

theorem stateAfter_active (hrise : TimesRise node) (hsuffix : older <:+ node)
    (h : stateAfter (d.checker p) older = .ok .active) :
    stateAfter (d.checker p) node = .ok .active := by
  unfold stateAfter at h ⊢
  by_cases hforce : (d.checker p).forceActive node = true
  · rw [if_pos hforce]
  have hforce' : ¬ (d.checker p).forceActive older = true :=
    fun hold => hforce (forceActive_mono hsuffix hold)
  rw [if_neg hforce'] at h
  rw [if_neg hforce]
  by_cases hshort : older.length < (d.checker p).minerConfirmationWindow
  · rw [if_pos hshort] at h
    cases h
  rw [if_neg hshort] at h
  have hle := hsuffix.length_le
  rw [if_neg (by omega)]
  have hends := length_windowEnd (d.checker p) older
  have hends' := length_windowEnd (d.checker p) node
  have hwindows : older.length / (d.checker p).minerConfirmationWindow *
        (d.checker p).minerConfirmationWindow ≤
      node.length / (d.checker p).minerConfirmationWindow * (d.checker p).minerConfirmationWindow :=
    Nat.mul_le_mul_right _ (Nat.div_le_div_right hle)
  have hend : older.drop (older.length % (d.checker p).minerConfirmationWindow) <:+
      node.drop (node.length % (d.checker p).minerConfirmationWindow) :=
    suffix_of_suffix_length_le ((drop_suffix _ _).trans hsuffix) (drop_suffix _ _)
      (by omega)
  exact windowState_active (hrise.of_suffix (drop_suffix _ _)) hend hends hends' h

end ConsensusDeployment

/-- Queries on the nodes of a tree with a shared cache: each returns the state it
would return with an empty cache, and once active after a node, active after every
descendant. -/
theorem activation_final (tree : HeaderTree) (d : ConsensusDeployment) (p : VotingParams) :
    (∀ queries : List (List HeaderInfo), (∀ node ∈ queries, node ∈ tree.nodes) →
      runQueries (d.checker p) queries ThresholdCache.empty =
        queries.map fun node => (thresholdState (d.checker p) node ThresholdCache.empty).1) ∧
    (∀ node ∈ tree.nodes, ∃ state,
      (thresholdState (d.checker p) node ThresholdCache.empty).1 = .ok state) ∧
    ∀ node ∈ tree.nodes, ∀ descendant ∈ tree.nodes, node <:+ descendant →
      (thresholdState (d.checker p) node ThresholdCache.empty).1 = .ok .active →
      (thresholdState (d.checker p) descendant ThresholdCache.empty).1 = .ok .active := by
  have hfirst : ∀ node ∈ tree.nodes,
      (thresholdState (d.checker p) node ThresholdCache.empty).1 = stateAfter (d.checker p) node :=
    fun node hnode => (thresholdState_eq soundCache_empty hnode).1
  refine ⟨?_, ?_, ?_⟩
  · intro queries hqueries
    rw [runQueries_eq soundCache_empty hqueries]
    exact map_congr_left fun node hnode => (hfirst node (hqueries node hnode)).symm
  · intro node hnode
    rw [hfirst node hnode]
    exact ConsensusDeployment.stateAfter_ok d p node
  · intro node hnode descendant hdescendant hsuffix hactive
    rw [hfirst node hnode] at hactive
    rw [hfirst descendant hdescendant]
    exact ConsensusDeployment.stateAfter_active (tree.rises descendant hdescendant) hsuffix hactive

def votingChain : Nat → List HeaderInfo
  | 0 => []
  | n + 1 => ⟨BitVec.ofNat 256 (n + 1), 0x20000001, 600 * n, 0⟩ :: votingChain n

def votingNodes : List (List HeaderInfo) := (List.range 7).map fun n => votingChain (n + 1)

def votingTree : HeaderTree where
  nodes := {node | node ∈ votingNodes}
  ne_nil := show [] ∉ votingNodes by decide
  parent_mem := show ∀ node ∈ votingNodes, node.tail ≠ [] → node.tail ∈ votingNodes by
    decide +kernel
  unique := show ∀ node ∈ votingNodes, ∀ other ∈ votingNodes,
      node.head?.map HeaderInfo.hash = other.head?.map HeaderInfo.hash → node = other by
    decide +kernel
  rises := show ∀ node ∈ votingNodes, TimesRise node by decide +kernel

def firstBit : ConsensusDeployment := ⟨0, 0, 0, 0, some 600, none⟩

/-- Defined, started, locked in and active, with windows of two blocks. -/
example : (List.range 8).map (fun n => (thresholdState (firstBit.checker ⟨2, 2, by decide⟩)
      (votingChain n) ThresholdCache.empty).1.toOption) =
    [some .defined, some .defined, some .started, some .started, some .lockedIn, some .lockedIn,
      some .active, some .active] := by
  decide +kernel

/-- Active after the sixth block is active after the seventh. -/
theorem first_bit_stays_active :
    (thresholdState (firstBit.checker ⟨2, 2, by decide⟩) (votingChain 7)
      ThresholdCache.empty).1 = .ok .active := by
  refine (activation_final votingTree firstBit ⟨2, 2, by decide⟩).2.2 (votingChain 6)
    (show votingChain 6 ∈ votingNodes by decide +kernel) (votingChain 7)
    (show votingChain 7 ∈ votingNodes by decide +kernel) (suffix_cons _ _) ?_
  decide +kernel

end FalconDraw.Chain
