import ButCore.Lib.Ballot
import ButCore.Validation.BlockTree

/-!
# Sporks

A node keeps the latest message of every spork key for every spork, and a value is active when
enough keys vote for it. The key that signed a message is recovered from the message and its
signature; recovery and the message hash are parameters.
-/
namespace ButCore.Spork
open Std (ExtTreeMap)
open Ballot Validation

/-- An `int32_t` of the message: values that name no known spork are stored as well. -/
abbrev SporkId := BitVec 32

structure CSporkMessage where
  nSporkID : SporkId
  nValue : ℤ
  nTimeSigned : ℤ
  vchSig : List (BitVec 8)
  deriving DecidableEq

structure Env where
  getHash : CSporkMessage → Uint256
  getSignerKeyID : CSporkMessage → Option CKeyID

structure CSporkManager where
  mapSporksByHash : Uint256 → Option CSporkMessage
  mapSporksActive : SporkId → Option (ExtTreeMap CKeyID CSporkMessage)
  setSporkPubKeyIDs : Finset CKeyID
  nMinSporkKeys : ℤ

structure NodeView where
  fLiteMode : Bool
  hasTip : Bool
  adjustedTime : ℤ
  deriving DecidableEq

inductive Reply where
  | silent
  | misbehaving (howmuch : ℕ)
  | relay (spork : CSporkMessage)
  deriving DecidableEq

namespace CSporkManager

def empty (setSporkPubKeyIDs : Finset CKeyID) (nMinSporkKeys : ℤ) : CSporkManager :=
  ⟨fun _ => none, fun _ => none, setSporkPubKeyIDs, nMinSporkKeys⟩

def seen (manager : CSporkManager) (spork : CSporkMessage) (keyIDSigner : CKeyID) : Bool :=
  match manager.mapSporksActive spork.nSporkID with
  | none => false
  | some signers =>
    match signers[keyIDSigner]? with
    | none => false
    | some stored => decide (stored.nTimeSigned ≥ spork.nTimeSigned)

def store (env : Env) (manager : CSporkManager) (spork : CSporkMessage) (keyIDSigner : CKeyID) :
    CSporkManager :=
  let signers := (manager.mapSporksActive spork.nSporkID).getD ∅
  { manager with
    mapSporksByHash :=
      Function.update manager.mapSporksByHash (env.getHash spork) (some spork)
    mapSporksActive := Function.update manager.mapSporksActive spork.nSporkID
      (some (signers.insert keyIDSigner spork)) }

def processSpork (env : Env) (manager : CSporkManager) (node : NodeView) (spork : CSporkMessage) :
    Reply × CSporkManager :=
  if node.fLiteMode = true then (.silent, manager)
  else if node.hasTip = false then (.silent, manager)
  else if spork.nTimeSigned > node.adjustedTime + MAX_FUTURE_BLOCK_TIME then
    (.misbehaving 100, manager)
  else
    match env.getSignerKeyID spork with
    | none => (.misbehaving 100, manager)
    | some keyIDSigner =>
      if keyIDSigner ∉ manager.setSporkPubKeyIDs then (.misbehaving 100, manager)
      else if manager.seen spork keyIDSigner = true then (.silent, manager)
      else (.relay spork, manager.store env spork keyIDSigner)

/-- `nActiveValueRet`, if the function returns true. The signers are visited in the order of their
keys. -/
def sporkValueIsActive (manager : CSporkManager) (nSporkID : SporkId) : Option ℤ :=
  match manager.mapSporksActive nSporkID with
  | none => none
  | some signers =>
    firstReaching manager.nMinSporkKeys (signers.toList.map fun p => p.2.nValue) fun _ => 0

end CSporkManager

def sporkDefs : List (SporkId × ℤ) :=
  [(10001, 4070908800), (10002, 4070908800), (10008, 4070908800), (10014, 4070908800),
    (10015, 4070908800), (10016, 4070908800), (10018, 4070908800), (10019, 4070908800),
    (10020, 4070908800), (10021, 4070908800)]

def CSporkManager.getSporkValue (manager : CSporkManager) (nSporkID : SporkId) : ℤ :=
  match manager.sporkValueIsActive nSporkID with
  | some nSporkValue => nSporkValue
  | none => (sporkDefs.lookup nSporkID).getD (-1)

structure Delivery where
  node : NodeView
  spork : CSporkMessage
  deriving DecidableEq

def receive (env : Env) (manager : CSporkManager) (deliveries : List Delivery) : CSporkManager :=
  deliveries.foldl (fun manager d => (manager.processSpork env d.node d.spork).2) manager

/-! ### What a node holds for a signer -/

def CSporkManager.held (manager : CSporkManager) (nSporkID : SporkId) (key : CKeyID) :
    Option CSporkMessage :=
  (manager.mapSporksActive nSporkID).bind fun signers => signers[key]?

def Delivery.Valid (env : Env) (keys : Finset CKeyID) (d : Delivery) : Prop :=
  d.node.fLiteMode = false ∧ d.node.hasTip = true ∧
    d.spork.nTimeSigned ≤ d.node.adjustedTime + MAX_FUTURE_BLOCK_TIME ∧
    ∃ key ∈ keys, env.getSignerKeyID d.spork = some key

variable {ds : List Delivery}

section

variable {env : Env} {manager : CSporkManager}

theorem held_store (spork : CSporkMessage) (signer : CKeyID) (nSporkID : SporkId) (key : CKeyID) :
    (manager.store env spork signer).held nSporkID key =
      if nSporkID = spork.nSporkID ∧ key = signer then some spork
      else manager.held nSporkID key := by
  unfold CSporkManager.held CSporkManager.store
  by_cases hid : nSporkID = spork.nSporkID
  · subst hid
    simp only [Function.update_self, Option.bind_some, Keyed.getElem?_insert_eq, true_and]
    cases manager.mapSporksActive spork.nSporkID with
    | none => simp
    | some signers => rfl
  · simp only [Function.update_of_ne hid, hid, false_and, if_false]

theorem seen_eq (spork : CSporkMessage) (key : CKeyID) :
    manager.seen spork key = true ↔
      ∃ stored, manager.held spork.nSporkID key = some stored ∧
        spork.nTimeSigned ≤ stored.nTimeSigned := by
  unfold CSporkManager.seen CSporkManager.held
  cases manager.mapSporksActive spork.nSporkID with
  | none => simp
  | some signers =>
    simp only [Option.bind_some]
    cases signers[key]? with
    | none => simp
    | some stored => simp

theorem held_processSpork {keys : Finset CKeyID} (hkeys : manager.setSporkPubKeyIDs = keys)
    {d : Delivery} (hd : d.Valid env keys) (nSporkID : SporkId) (key : CKeyID) :
    (manager.processSpork env d.node d.spork).2.held nSporkID key =
      if nSporkID = d.spork.nSporkID ∧ env.getSignerKeyID d.spork = some key then
        keepLatest CSporkMessage.nTimeSigned (manager.held nSporkID key) d.spork
      else manager.held nSporkID key := by
  obtain ⟨hlite, htip, htime, signer, hmem, hsigner⟩ := hd
  have hstep : (manager.processSpork env d.node d.spork).2 =
      if manager.seen d.spork signer = true then manager
      else manager.store env d.spork signer := by
    have hmem' : ¬ signer ∉ manager.setSporkPubKeyIDs := by rwa [hkeys, not_not]
    unfold CSporkManager.processSpork
    simp only [hlite, htip, not_lt.mpr htime, hsigner, hmem', Bool.false_eq_true,
      Bool.true_eq_false, if_false]
    split <;> rfl
  rw [hstep, hsigner]
  by_cases hmine : nSporkID = d.spork.nSporkID ∧ some signer = some key
  · rw [if_pos hmine]
    obtain ⟨rfl, hkey⟩ := hmine
    obtain rfl : signer = key := Option.some.inj hkey
    by_cases hseen : manager.seen d.spork signer = true
    · rw [if_pos hseen]
      obtain ⟨stored, hheld, hle⟩ := (seen_eq d.spork signer).mp hseen
      rw [hheld, keepLatest, if_pos hle]
    · rw [if_neg hseen, held_store, if_pos ⟨rfl, rfl⟩]
      cases hheld : manager.held d.spork.nSporkID signer with
      | none => rfl
      | some stored =>
        have hlater : ¬ d.spork.nTimeSigned ≤ stored.nTimeSigned := fun hle =>
          hseen ((seen_eq d.spork signer).mpr ⟨stored, hheld, hle⟩)
        rw [keepLatest, if_neg hlater]
  · rw [if_neg hmine]
    by_cases hseen : manager.seen d.spork signer = true
    · rw [if_pos hseen]
    · rw [if_neg hseen, held_store,
        if_neg fun h => hmine ⟨h.1, congrArg some h.2.symm⟩]

theorem processSpork_keys (d : Delivery) :
    (manager.processSpork env d.node d.spork).2.setSporkPubKeyIDs = manager.setSporkPubKeyIDs ∧
      (manager.processSpork env d.node d.spork).2.nMinSporkKeys = manager.nMinSporkKeys := by
  unfold CSporkManager.processSpork
  repeat' split
  all_goals exact ⟨rfl, rfl⟩

theorem receive_keys (ds : List Delivery) :
    (receive env manager ds).setSporkPubKeyIDs = manager.setSporkPubKeyIDs ∧
      (receive env manager ds).nMinSporkKeys = manager.nMinSporkKeys := by
  induction ds generalizing manager with
  | nil => exact ⟨rfl, rfl⟩
  | cons d ds ih =>
    obtain ⟨hkeys, hmin⟩ := @processSpork_keys env manager d
    obtain ⟨hkeys', hmin'⟩ := @ih (manager.processSpork env d.node d.spork).2
    exact ⟨hkeys'.trans hkeys, hmin'.trans hmin⟩

def messagesOf (env : Env) (ds : List Delivery) (nSporkID : SporkId) (key : CKeyID) :
    List CSporkMessage :=
  (ds.map Delivery.spork).filter fun spork =>
    decide (nSporkID = spork.nSporkID ∧ env.getSignerKeyID spork = some key)

theorem held_receive {keys : Finset CKeyID} (hkeys : manager.setSporkPubKeyIDs = keys)
    (hds : ∀ d ∈ ds, d.Valid env keys) (nSporkID : SporkId) (key : CKeyID) :
    (receive env manager ds).held nSporkID key =
      (messagesOf env ds nSporkID key).foldl (keepLatest CSporkMessage.nTimeSigned)
        (manager.held nSporkID key) := by
  induction ds generalizing manager with
  | nil => rfl
  | cons d ds ih =>
    have hnext : (manager.processSpork env d.node d.spork).2.setSporkPubKeyIDs = keys :=
      (processSpork_keys d).1.trans hkeys
    have hstep := held_processSpork hkeys (hds d List.mem_cons_self) nSporkID key
    refine (ih hnext fun d' hd' => hds d' (List.mem_cons_of_mem d hd')).trans ?_
    rw [hstep]
    unfold messagesOf
    rw [List.map_cons, List.filter_cons]
    by_cases hmine : nSporkID = d.spork.nSporkID ∧ env.getSignerKeyID d.spork = some key
    · rw [if_pos hmine, if_pos (decide_eq_true hmine), List.foldl_cons]
    · rw [if_neg hmine, if_neg (by rwa [decide_eq_true_iff])]

end

/-! ### The active value is decided by the set of messages -/

/-- A latest message of a signer for a spork, among the messages of a set. -/
def LatestOf (env : Env) (sporks : Finset CSporkMessage) (nSporkID : SporkId) (key : CKeyID)
    (spork : CSporkMessage) : Prop :=
  spork ∈ sporks ∧ spork.nSporkID = nSporkID ∧ env.getSignerKeyID spork = some key ∧
    ∀ other ∈ sporks, other.nSporkID = nSporkID → env.getSignerKeyID other = some key →
      other.nTimeSigned ≤ spork.nTimeSigned

/-- Latest messages of one signer for one spork agree on the value. -/
def SingleVotes (env : Env) (sporks : Finset CSporkMessage) : Prop :=
  ∀ nSporkID key spork spork', LatestOf env sporks nSporkID key spork →
    LatestOf env sporks nSporkID key spork' → spork.nValue = spork'.nValue

open Classical in
noncomputable def votes (env : Env) (keys : Finset CKeyID) (sporks : Finset CSporkMessage)
    (nSporkID : SporkId) (nValue : ℤ) : Finset CKeyID :=
  keys.filter fun key => ∃ spork, LatestOf env sporks nSporkID key spork ∧ spork.nValue = nValue

section

variable {env : Env} {manager : CSporkManager} {keys : Finset CKeyID}
variable {signers : ExtTreeMap CKeyID CSporkMessage}

theorem count_signers (hkeys : ∀ key, signers[key]?.isSome → key ∈ keys) (nValue : ℤ) :
    (signers.toList.map fun p => p.2.nValue).count nValue =
      (keys.filter fun key => signers[key]?.map CSporkMessage.nValue = some nValue).card := by
  have hvoters : keys.filter (fun key => signers[key]?.map CSporkMessage.nValue = some nValue) =
      ((signers.toList.filter fun p => p.2.nValue == nValue).map Prod.fst).toFinset := by
    ext key
    simp only [Finset.mem_filter, List.mem_toFinset, List.mem_map, List.mem_filter, beq_iff_eq,
      Prod.exists, exists_and_right, exists_eq_right, ExtTreeMap.mem_toList_iff_getElem?_eq_some,
      Option.map_eq_some_iff]
    constructor
    · rintro ⟨-, spork, hspork, hvalue⟩
      exact ⟨spork, hspork, hvalue⟩
    · rintro ⟨spork, hspork, hvalue⟩
      exact ⟨hkeys key (by rw [hspork]; rfl), spork, hspork, hvalue⟩
  have hsub : ((signers.toList.filter fun p => p.2.nValue == nValue).map Prod.fst).Nodup :=
    (Keyed.nodup_keys signers).sublist (List.filter_sublist.map Prod.fst)
  rw [hvoters, List.toFinset_card_of_nodup hsub, List.length_map, List.count, List.countP_map,
    List.countP_eq_length_filter]
  rfl

theorem length_signers (hkeys : ∀ key, signers[key]?.isSome → key ∈ keys) : signers.toList.length ≤ keys.card := by
  rw [← List.length_map Prod.fst, ← List.toFinset_card_of_nodup (Keyed.nodup_keys _)]
  apply Finset.card_le_card
  intro key hkey
  rw [List.mem_toFinset, List.mem_map] at hkey
  obtain ⟨p, hp, rfl⟩ := hkey
  exact hkeys p.1 (by rw [ExtTreeMap.mem_toList_iff_getElem?_eq_some.mp hp]; rfl)

variable {nSporkID : SporkId}

theorem sporkValueIsActive_iff (hmin : (keys.card : ℤ) < 2 * manager.nMinSporkKeys)
    (hkeys : ∀ key, (manager.held nSporkID key).isSome → key ∈ keys) (nValue : ℤ) :
    manager.sporkValueIsActive nSporkID = some nValue ↔
      manager.nMinSporkKeys ≤ (keys.filter fun key =>
        (manager.held nSporkID key).map CSporkMessage.nValue = some nValue).card := by
  unfold CSporkManager.sporkValueIsActive
  unfold CSporkManager.held at hkeys ⊢
  cases hactive : manager.mapSporksActive nSporkID with
  | none =>
    have hpos : ¬ manager.nMinSporkKeys ≤ 0 := by
      have := Int.natCast_nonneg keys.card
      omega
    simp [hpos]
  | some signers =>
    rw [hactive] at hkeys
    have hlength := length_signers hkeys
    rw [← Nat.cast_le (α := ℤ)] at hlength
    simp only [Option.bind_some]
    rw [← count_signers hkeys, firstReaching_eq_some_iff]
    rw [List.length_map]
    exact lt_of_le_of_lt hlength hmin

variable {sporks : Finset CSporkMessage} {spork : CSporkMessage} {key : CKeyID}

theorem mem_messagesOf (hds : (ds.map Delivery.spork).toFinset = sporks) :
    spork ∈ messagesOf env ds nSporkID key ↔
      spork ∈ sporks ∧ spork.nSporkID = nSporkID ∧ env.getSignerKeyID spork = some key := by
  unfold messagesOf
  rw [List.mem_filter, ← hds, List.mem_toFinset, decide_eq_true_iff, eq_comm (a := nSporkID)]

theorem isLatest_iff (hds : (ds.map Delivery.spork).toFinset = sporks) :
    IsLatest CSporkMessage.nTimeSigned (messagesOf env ds nSporkID key) spork ↔
      LatestOf env sporks nSporkID key spork := by
  unfold IsLatest LatestOf
  simp only [mem_messagesOf hds, and_imp, and_assoc]

theorem held_receive_iff (hvalid : ∀ d ∈ ds, d.Valid env keys)
    (hds : (ds.map Delivery.spork).toFinset = sporks) (hsingle : SingleVotes env sporks)
    (nMinSporkKeys : ℤ) (nSporkID : SporkId) (key : CKeyID) (nValue : ℤ) :
    ((receive env (.empty keys nMinSporkKeys) ds).held nSporkID key).map CSporkMessage.nValue =
        some nValue ↔
      ∃ spork, LatestOf env sporks nSporkID key spork ∧ spork.nValue = nValue := by
  have hheld : (receive env (.empty keys nMinSporkKeys) ds).held nSporkID key =
      (messagesOf env ds nSporkID key).foldl (keepLatest CSporkMessage.nTimeSigned) none :=
    held_receive rfl hvalid nSporkID key
  obtain ⟨hlatest, hnone⟩ :=
    @foldl_keepLatest_spec _ _ _ CSporkMessage.nTimeSigned (messagesOf env ds nSporkID key)
  rw [hheld, Option.map_eq_some_iff]
  constructor
  · rintro ⟨spork, hspork, hvalue⟩
    exact ⟨spork, (isLatest_iff hds).mp (hlatest spork hspork), hvalue⟩
  · rintro ⟨spork, hspork, hvalue⟩
    cases hstored : (messagesOf env ds nSporkID key).foldl
        (keepLatest CSporkMessage.nTimeSigned) none with
    | none =>
      have hmem := ((isLatest_iff hds).mpr hspork).1
      rw [hnone hstored] at hmem
      cases hmem
    | some stored =>
      have hlast := (isLatest_iff hds).mp (hlatest stored hstored)
      exact ⟨stored, rfl, (hsingle nSporkID key stored spork hlast hspork).trans hvalue⟩

theorem held_receive_mem (hvalid : ∀ d ∈ ds, d.Valid env keys) (nMinSporkKeys : ℤ)
    (nSporkID : SporkId) (key : CKeyID)
    (h : ((receive env (.empty keys nMinSporkKeys) ds).held nSporkID key).isSome) : key ∈ keys := by
  obtain ⟨stored, hstored⟩ := Option.isSome_iff_exists.mp h
  rw [held_receive rfl hvalid] at hstored
  have hmem := ((@foldl_keepLatest_spec _ _ _ CSporkMessage.nTimeSigned
    (messagesOf env ds nSporkID key)).1 stored hstored).1
  unfold messagesOf at hmem
  rw [List.mem_filter, List.mem_map, decide_eq_true_iff] at hmem
  obtain ⟨⟨d, hd, rfl⟩, -, hsigner⟩ := hmem
  obtain ⟨-, -, -, key', hkey', hsigner'⟩ := hvalid d hd
  rw [hsigner, Option.some.injEq] at hsigner'
  rwa [hsigner']

theorem sporkValueIsActive_receive {nMinSporkKeys : ℤ} (hmin : (keys.card : ℤ) < 2 * nMinSporkKeys)
    (hvalid : ∀ d ∈ ds, d.Valid env keys) (hds : (ds.map Delivery.spork).toFinset = sporks)
    (hsingle : SingleVotes env sporks) (nSporkID : SporkId) (nValue : ℤ) :
    (receive env (.empty keys nMinSporkKeys) ds).sporkValueIsActive nSporkID = some nValue ↔
      nMinSporkKeys ≤ (votes env keys sporks nSporkID nValue).card := by
  have hmin' : (receive env (.empty keys nMinSporkKeys) ds).nMinSporkKeys = nMinSporkKeys :=
    (receive_keys ds).2
  rw [sporkValueIsActive_iff (hmin'.symm ▸ hmin) (held_receive_mem hvalid nMinSporkKeys nSporkID),
    hmin']
  have hvotes : (keys.filter fun key => ((receive env (.empty keys nMinSporkKeys) ds).held nSporkID
      key).map CSporkMessage.nValue = some nValue) = votes env keys sporks nSporkID nValue := by
    ext key
    simp only [votes, Finset.mem_filter, held_receive_iff hvalid hds hsingle]
  rw [hvotes]

end

/-- Two nodes that have received the same messages, each in its own order and with repetitions,
agree on every spork, if latest messages of one signer agree. -/
theorem sporkValueIsActive_agrees (env : Env) (keys : Finset CKeyID) (nMinSporkKeys : ℤ)
    (hmin : (keys.card : ℤ) < 2 * nMinSporkKeys) (sporks : Finset CSporkMessage)
    (hsingle : SingleVotes env sporks) (ds ds' : List Delivery)
    (hvalid : ∀ d ∈ ds, d.Valid env keys) (hvalid' : ∀ d ∈ ds', d.Valid env keys)
    (hds : (ds.map Delivery.spork).toFinset = sporks)
    (hds' : (ds'.map Delivery.spork).toFinset = sporks) (nSporkID : SporkId) :
    (receive env (.empty keys nMinSporkKeys) ds).sporkValueIsActive nSporkID =
        (receive env (.empty keys nMinSporkKeys) ds').sporkValueIsActive nSporkID ∧
      (receive env (.empty keys nMinSporkKeys) ds).getSporkValue nSporkID =
        (receive env (.empty keys nMinSporkKeys) ds').getSporkValue nSporkID := by
  have hactive : (receive env (.empty keys nMinSporkKeys) ds).sporkValueIsActive nSporkID =
      (receive env (.empty keys nMinSporkKeys) ds').sporkValueIsActive nSporkID := by
    ext nValue
    rw [sporkValueIsActive_receive hmin hvalid hds hsingle,
      sporkValueIsActive_receive hmin hvalid' hds' hsingle]
  refine ⟨hactive, ?_⟩
  unfold CSporkManager.getSporkValue
  rw [hactive]

def toyEnv : Env where
  getHash := fun spork => BitVec.ofInt 256 spork.nTimeSigned
  getSignerKeyID := fun spork => spork.vchSig.head?.map (BitVec.setWidth 160)

def toyNode : NodeView := ⟨false, true, 1000⟩

def toySpork (signer : BitVec 8) (nValue nTimeSigned : ℤ) : CSporkMessage :=
  ⟨10001, nValue, nTimeSigned, [signer]⟩

theorem toyDelivery_valid {keys : Finset CKeyID} {signer : BitVec 8} {nValue nTimeSigned : ℤ}
    (hkey : signer.setWidth 160 ∈ keys) (htime : nTimeSigned ≤ 1900) :
    Delivery.Valid toyEnv keys ⟨toyNode, toySpork signer nValue nTimeSigned⟩ :=
  ⟨rfl, rfl, htime, signer.setWidth 160, hkey, rfl⟩

theorem sporkValueIsActive_agrees_toy :
    (receive toyEnv (.empty {1, 2, 3} 2) [⟨toyNode, toySpork 1 5 10⟩, ⟨toyNode, toySpork 2 5 10⟩,
        ⟨toyNode, toySpork 1 7 9⟩]).sporkValueIsActive 10001 =
      (receive toyEnv (.empty {1, 2, 3} 2) [⟨toyNode, toySpork 1 7 9⟩, ⟨toyNode, toySpork 2 5 10⟩,
        ⟨toyNode, toySpork 1 5 10⟩, ⟨toyNode, toySpork 1 7 9⟩]).sporkValueIsActive 10001 ∧
    (receive toyEnv (.empty {1, 2, 3} 2) [⟨toyNode, toySpork 1 5 10⟩, ⟨toyNode, toySpork 2 5 10⟩,
        ⟨toyNode, toySpork 1 7 9⟩]).sporkValueIsActive 10001 = some 5 := by
  refine ⟨(sporkValueIsActive_agrees toyEnv {1, 2, 3} 2 (by decide)
    {toySpork 1 5 10, toySpork 2 5 10, toySpork 1 7 9} ?_ _ _ ?_ ?_ (by decide) (by decide)
    10001).1, by decide +kernel⟩
  · intro nSporkID key spork spork' ⟨hmem, hid, hkey, hlatest⟩ ⟨hmem', hid', hkey', hlatest'⟩
    simp only [Finset.mem_insert, Finset.mem_singleton] at hmem hmem'
    rcases hmem with rfl | rfl | rfl <;> rcases hmem' with rfl | rfl | rfl
    all_goals first
      | rfl
      | exact absurd (hkey.trans hkey'.symm) (by decide)
      | exact absurd (hlatest (toySpork 1 5 10) (by decide) hid hkey') (by decide)
      | exact absurd (hlatest' (toySpork 1 5 10) (by decide) hid hkey) (by decide)
  all_goals
    simp only [List.forall_mem_cons, List.not_mem_nil, IsEmpty.forall_iff, implies_true, and_true]
    refine ⟨?_, ?_, ?_⟩ <;> first
      | exact toyDelivery_valid (by decide) (by decide)
      | exact ⟨toyDelivery_valid (by decide) (by decide), toyDelivery_valid (by decide) (by decide)⟩

/-- A key signs two values in one second, and the first that arrives is kept. -/
theorem sporkValueIsActive_sameSecond :
    (∀ d ∈ [(⟨toyNode, toySpork 1 5 10⟩ : Delivery), ⟨toyNode, toySpork 1 7 10⟩],
      d.Valid toyEnv {1}) ∧
    (receive toyEnv (.empty {1} 1)
      [⟨toyNode, toySpork 1 5 10⟩, ⟨toyNode, toySpork 1 7 10⟩]).sporkValueIsActive 10001 = some 5 ∧
    (receive toyEnv (.empty {1} 1)
      [⟨toyNode, toySpork 1 7 10⟩, ⟨toyNode, toySpork 1 5 10⟩]).sporkValueIsActive 10001 =
        some 7 := by
  refine ⟨?_, by decide +kernel, by decide +kernel⟩
  simp only [List.forall_mem_cons, List.not_mem_nil, IsEmpty.forall_iff, implies_true, and_true]
  exact ⟨toyDelivery_valid (by decide) (by decide), toyDelivery_valid (by decide) (by decide)⟩

end ButCore.Spork
