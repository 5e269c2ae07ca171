import RoiCoin.Net.BlockDownload
import RoiCoin.Net.Locators
import RoiCoin.Validation.AcceptInvariant

/-! Headers from a peer: the answer to `getheaders` and what `headers` does, with the exchange that
the two messages make between two nodes. -/

namespace RoiCoin

open Branches

/-! ## The messages -/

def maxHeadersResults : Nat := 2000

namespace BlockMap

/-- `chainActive.Next(pindex)` -/
def next (m : BlockMap) (vChain : CChain) (pindex : Uint256) : Option Uint256 :=
  if m.contains vChain pindex then vChain.entryAt (m.nHeight pindex + 1) else none

/-- The loop over the headers that are sent, `nLimit` at most. -/
def headersLoop (m : BlockMap) (vChain : CChain) (hashStop : Uint256) :
    Nat → Option Uint256 → List Uint256
  | 0, _ => []
  | _ + 1, none => []
  | nLimit + 1, some pindex =>
      pindex ::
        if pindex = hashStop then [] else m.headersLoop vChain hashStop nLimit (m.next vChain pindex)

end BlockMap

/-- The answer to `getheaders`, where there is one. -/
def ChainState.getheaders (s : ChainState) (initialBlockDownload : Bool) (vHave : List Uint256)
    (hashStop : Uint256) : Option (List Uint256) :=
  if initialBlockDownload then none
  else if vHave = [] then
    -- without a locator the header of `hashStop` is meant
    if s.blockMap.Known hashStop then
      some (s.blockMap.headersLoop s.vChain hashStop maxHeadersResults (some hashStop))
    else none
  else
    let pindex := (s.blockMap.findForkInGlobalIndex s.vChain vHave).bind (s.blockMap.next s.vChain)
    some (s.blockMap.headersLoop s.vChain hashStop maxHeadersResults pindex)

/-- `UpdateBlockAvailability` -/
def DownloadView.updateBlockAvailability (s : DownloadView) (state : PeerBlocks) (hash : Uint256) :
    PeerBlocks :=
  let state := s.processBlockAvailability state
  if s.tree.blockMap.Known hash ∧ s.tree.nChainWork hash > 0 then
    let better :=
      match state.pindexBestKnownBlock with
      | none => true
      | some best => decide (s.tree.nChainWork hash ≥ s.tree.nChainWork best)
    { state with
      pindexBestKnownBlock := if better then some hash else state.pindexBestKnownBlock }
  else { state with hashLastUnknownBlock := hash }

inductive HeadersFailure where
  | tooMany
  | nonContinuous
  | invalidHeader
  deriving DecidableEq, Repr

/-- The loop over the headers of a message; `pindexLast` is the entry of the one before. -/
def ChainState.acceptHeaders (w : Surroundings) :
    ChainState → Option Uint256 → List OfferedBlock →
      ChainState × Except HeadersFailure (Option Uint256)
  | s, pindexLast, [] => (s, .ok pindexLast)
  | s, pindexLast, header :: headers =>
      if pindexLast.any (· != header.hashPrevBlock) then (s, .error .nonContinuous)
      else
        match s.acceptBlockHeader w header with
        | (s, false) => (s, .error .invalidHeader)
        | (s, true) => acceptHeaders w s (some header.hash) headers

/-- A node and what it knows of the peer that it asks. -/
structure HeadersNode where
  view : DownloadView
  peer : PeerBlocks

/-- What follows on `headers`. -/
inductive AfterHeaders where
  | nothing
  /-- The next `getheaders`. -/
  | more (vHave : List Uint256)
  | refused (failure : HeadersFailure)
  | nullPointer
  deriving DecidableEq, Repr

/-- `headers`; the message is ignored while blocks are imported. -/
def HeadersNode.headers (w : Surroundings) (importing : Bool) (node : HeadersNode)
    (headers : List OfferedBlock) : HeadersNode × AfterHeaders :=
  if importing then (node, .nothing)
  else if headers.length > maxHeadersResults then (node, .refused .tooMany)
  else if headers.length = 0 then (node, .nothing)
  else
    match node.view.tree.acceptHeaders w none headers with
    | (tree, .error failure) => ({ node with view := { node.view with tree } }, .refused failure)
    | (tree, .ok pindexLast) =>
        let view := { node.view with tree }
        let peer := pindexLast.elim node.peer (view.updateBlockAvailability node.peer)
        if headers.length = maxHeadersResults ∧ pindexLast ≠ none then
          match tree.blockMap.getLocator tree.vChain pindexLast with
          | none => (⟨view, peer⟩, .nullPointer)
          | some vHave => (⟨view, peer⟩, .more vHave)
        else (⟨view, peer⟩, .nothing)

/-! ## What is answered -/

theorem entryAt_at (entries : List Uint256) (k : Nat) :
    CChain.entryAt (entries.map some) k = entries[k]? := by
  rw [CChain.entryAt, List.length_map]
  by_cases inside : k < entries.length
  · rw [if_neg (by omega), Int.toNat_natCast, List.getD_eq_getElem?_getD, List.getElem?_map,
      List.getElem?_eq_getElem inside]
    rfl
  · rw [if_pos (by omega), List.getElem?_eq_none (by omega)]

namespace ChainState

variable {source : HeaderSource} {b : ChainState}

theorem Indexes.height_at (indexes : b.Indexes source) (k : Nat) (p : Uint256)
    (there : b.chainActive.reverse[k]? = some p) : b.nHeight p = k := by
  obtain ⟨tip, known, active⟩ := indexes.active
  rw [active] at there
  have size : (b.branch tip).length = b.nHeight tip + 1 :=
    length_branch _ _ _ indexes.skips.rooted tip known
  have inside := (List.getElem?_eq_some_iff.mp there).1
  rw [List.length_reverse] at inside
  obtain ⟨x, member, height⟩ :=
    exists_at_height _ _ _ indexes.skips.rooted tip known k (show k ≤ b.nHeight tip by omega)
  have place : (b.branch tip).reverse[b.nHeight x]? = some x :=
    branch_reverse_at _ _ _ indexes.skips.rooted tip x known member
  have height' : b.nHeight x = k := height
  rw [height', there, Option.some.injEq] at place
  rw [place]
  exact height

theorem Indexes.at_height (indexes : b.Indexes source) (p : Uint256) (member : p ∈ b.chainActive) :
    b.chainActive.reverse[b.nHeight p]? = some p := by
  obtain ⟨tip, known, active⟩ := indexes.active
  rw [active] at member ⊢
  exact branch_reverse_at _ _ _ indexes.skips.rooted tip p known member

theorem Indexes.next_eq (indexes : b.Indexes source) (k : Nat) (p : Uint256)
    (there : b.chainActive.reverse[k]? = some p) :
    b.blockMap.next b.vChain p = b.chainActive.reverse[k + 1]? := by
  have height : b.blockMap.nHeight p = k := indexes.height_at k p there
  have member : p ∈ b.chainActive := List.mem_reverse.mp (List.mem_of_getElem? there)
  rw [BlockMap.next, if_pos ((indexes.contains_iff p).mpr member), height]
  exact entryAt_at b.chainActive.reverse (k + 1)

/-- The loop sends a piece of the active chain. -/
theorem Indexes.headersLoop_eq (indexes : b.Indexes source) (hashStop : Uint256)
    (unstopped : hashStop ∉ b.chainActive) (nLimit k : Nat) :
    b.blockMap.headersLoop b.vChain hashStop nLimit b.chainActive.reverse[k]? =
      (b.chainActive.reverse.drop k).take nLimit := by
  induction nLimit generalizing k with
  | zero => rfl
  | succ nLimit ih =>
      cases there : b.chainActive.reverse[k]? with
      | none =>
          have outside := List.getElem?_eq_none_iff.mp there
          rw [BlockMap.headersLoop, List.drop_eq_nil_of_le outside, List.take_nil]
      | some p =>
          have member : p ∈ b.chainActive := List.mem_reverse.mp (List.mem_of_getElem? there)
          obtain ⟨inside, here⟩ := List.getElem?_eq_some_iff.mp there
          have other : p ≠ hashStop := by
            rintro rfl
            exact unstopped member
          rw [BlockMap.headersLoop, if_neg other, indexes.next_eq k p there, ih,
            List.drop_eq_getElem_cons inside, List.take_succ_cons, here]

/-- The answer to a locator goes on after a block that the locator has, or after the first block. -/
theorem Indexes.getheaders_eq (indexes : b.Indexes source) (hashStop : Uint256)
    (unstopped : hashStop ∉ b.chainActive) (vHave : List Uint256) (some_entries : vHave ≠ []) :
    ∃ fork, b.blockMap.findForkInGlobalIndex b.vChain vHave = some fork ∧ fork ∈ b.chainActive ∧
      (fork ∈ vHave ∨ fork = source.hashGenesisBlock) ∧
      b.getheaders false vHave hashStop =
        some ((b.chainActive.reverse.drop (b.nHeight fork + 1)).take maxHeadersResults) := by
  have answer : ∀ fork, b.blockMap.findForkInGlobalIndex b.vChain vHave = some fork →
      fork ∈ b.chainActive → b.getheaders false vHave hashStop =
        some ((b.chainActive.reverse.drop (b.nHeight fork + 1)).take maxHeadersResults) := by
    intro fork found member
    rw [getheaders, if_neg (by decide), if_neg some_entries, found, Option.bind_some,
      indexes.next_eq (b.nHeight fork) fork (indexes.at_height fork member)]
    dsimp only
    rw [indexes.headersLoop_eq hashStop unstopped]
  have fork := find_fork_first b.blockMap b.vChain vHave
  cases found : vHave.find? fun hash =>
      decide (b.blockMap.Known hash ∧ b.blockMap.contains b.vChain hash = true) with
  | some hash =>
      rw [found, Option.some_or] at fork
      have holds := List.find?_some found
      simp only [decide_eq_true_eq] at holds
      have member := (indexes.contains_iff hash).mp holds.2
      exact ⟨hash, fork, member, .inl (List.mem_of_find?_eq_some found), answer hash fork member⟩
  | none =>
      have zero := indexes.at_height _ indexes.genesis_active
      rw [indexes.height_first] at zero
      have first : b.vChain.genesis = some source.hashGenesisBlock := by
        obtain ⟨inside, here⟩ := List.getElem?_eq_some_iff.mp zero
        rw [CChain.genesis, vChain, List.length_map, if_pos inside, List.getD_eq_getElem?_getD,
          List.getElem?_map, zero]
        rfl
      rw [found, Option.none_or, first] at fork
      exact ⟨_, fork, indexes.genesis_active, .inr rfl, answer _ fork indexes.genesis_active⟩

end ChainState

/-! ## What is accepted -/

/-- How the header checks go when a header arrives. -/
structure Verdicts where
  checkHeader : Uint256 → Bool
  contextualHeader : Uint256 → Bool

/-- A header as it arrives. -/
def HeaderSource.offered (source : HeaderSource) (verdicts : Verdicts) (hash : Uint256) :
    OfferedBlock where
  hash
  hashPrevBlock := source.hashPrevBlock hash
  nBits := source.nBits hash
  nTx := 0
  checkHeader := verdicts.checkHeader hash
  contextualHeader := verdicts.contextualHeader hash
  check := .valid
  fRequested := false
  written := false
  nFile := 0

namespace ChainState

variable {source : HeaderSource} {s s' s'' : ChainState}

/-- The block index is one still, and nothing is missing. -/
structure Grows (source : HeaderSource) (s s' : ChainState) : Prop where
  indexes : s'.Indexes source
  known : ∀ p ∈ s.known, p ∈ s'.known

theorem Grows.trans (first : Grows source s s') (second : Grows source s' s'') :
    Grows source s s'' :=
  ⟨second.indexes, fun p inside => second.known p (first.known p inside)⟩

/-- A header on top of a known one is added to the tree. -/
theorem Indexes.add (indexes : s.Indexes source) (verdicts : Verdicts) (hash : Uint256)
    (new : hash ∉ s.known) (parent : source.hashPrevBlock hash ∈ s.known) :
    Grows source s (s.addToBlockIndex (source.offered verdicts hash)) := by
  have admits : s.blockMap.Admits hash (source.hashPrevBlock hash) := .inr parent
  have walk := addToBlockIndex_walk indexes.skips (source.offered verdicts hash) new admits
  obtain ⟨m', added, skips, kept⟩ :=
    BlockMap.addToBlockIndex_skips indexes.skips hash (source.hashPrevBlock hash) admits
  have same : m' = (s.addToBlockIndex (source.offered verdicts hash)).blockMap :=
    Option.some.inj (added.symm.trans walk)
  rw [same] at skips kept
  have old : ∀ p ∈ s.known, (s.addToBlockIndex (source.offered verdicts hash)).pprev p = s.pprev p :=
    fun p inside => congrArg BlockNode.pprev (kept p inside).2
  have fresh : (s.addToBlockIndex (source.offered verdicts hash)).pprev hash =
      some (source.hashPrevBlock hash) := by
    have here := fresh_parent s (source.offered verdicts hash)
    have present : (source.offered verdicts hash).hashPrevBlock ∈ s.known := parent
    rw [if_pos present] at here
    exact here
  refine ⟨⟨skips, ?_, List.mem_cons_of_mem _ indexes.genesis, ?_, ?_⟩,
    fun p inside => List.mem_cons_of_mem _ inside⟩
  · intro p inside q link
    rcases List.mem_cons.mp inside with here | before
    · have here' : p = hash := here
      rw [here', fresh, Option.some.injEq] at link
      rw [here', link]
    · rw [old p before] at link
      exact indexes.links p before q link
  · rw [old _ indexes.genesis]
    exact indexes.first
  · obtain ⟨tip, known, active⟩ := indexes.active
    refine ⟨tip, List.mem_cons_of_mem _ known, ?_⟩
    have branch := add_branch s (source.offered verdicts hash) new indexes.skips.rooted tip known
    exact active.trans branch.symm

theorem Indexes.acceptBlockHeader_grows (indexes : s.Indexes source) (w : Surroundings)
    (genesis : w.hashGenesisBlock = source.hashGenesisBlock) (verdicts : Verdicts) (hash : Uint256) :
    Grows source s (s.acceptBlockHeader w (source.offered verdicts hash)).1 := by
  have here : (source.offered verdicts hash).hash = hash := rfl
  have same : Grows source s s := ⟨indexes, fun p inside => inside⟩
  rw [acceptBlockHeader, here]
  by_cases known : hash ∈ s.known
  · rw [if_pos known]
    exact same
  rw [if_neg known]
  by_cases refused : (!(source.offered verdicts hash).checkHeader) = true
  · rw [if_pos refused]
    exact same
  rw [if_neg refused]
  have later : hash ≠ w.hashGenesisBlock := by
    rintro rfl
    exact known (genesis ▸ indexes.genesis)
  rw [if_neg later]
  by_cases orphan : (source.offered verdicts hash).hashPrevBlock ∉ s.known
  · rw [if_pos orphan]
    exact same
  rw [if_neg orphan]
  split
  · exact same
  · split
    · exact same
    · exact indexes.add verdicts hash known (not_not.mp orphan)

/-- Where all headers are accepted, all are known, the last as `pindexLast`. -/
theorem Indexes.acceptHeaders_grows (w : Surroundings)
    (genesis : w.hashGenesisBlock = source.hashGenesisBlock) (verdicts : Verdicts)
    (hashes : List Uint256) (s : ChainState) (indexes : s.Indexes source)
    (pindexLast : Option Uint256) :
    Grows source s
        (s.acceptHeaders w pindexLast (hashes.map (source.offered verdicts))).1 ∧
      ∀ last, (s.acceptHeaders w pindexLast (hashes.map (source.offered verdicts))).2 = .ok last →
        (∀ p ∈ hashes,
          p ∈ (s.acceptHeaders w pindexLast (hashes.map (source.offered verdicts))).1.known) ∧
        last = (hashes.getLast?).or pindexLast := by
  induction hashes generalizing s pindexLast with
  | nil =>
      refine ⟨⟨indexes, fun p inside => inside⟩, ?_⟩
      intro last done
      simp only [List.map_nil, acceptHeaders, Except.ok.injEq] at done
      simp [done]
  | cons hash hashes ih =>
      have step := indexes.acceptBlockHeader_grows w genesis verdicts hash
      have entered := accept_header_known w s (source.offered verdicts hash)
      rw [List.map_cons, acceptHeaders]
      split
      · exact ⟨⟨indexes, fun p inside => inside⟩, by simp⟩
      · revert step entered
        rcases s.acceptBlockHeader w (source.offered verdicts hash) with ⟨t, _ | _⟩
        · intro step entered
          exact ⟨step, by simp⟩
        · intro step entered
          have rest := ih t step.indexes (some hash)
          dsimp only at step entered ⊢
          refine ⟨step.trans rest.1, ?_⟩
          intro last done
          obtain ⟨all, final⟩ := rest.2 last done
          refine ⟨?_, ?_⟩
          · intro p inList
            rcases List.mem_cons.mp inList with rfl | later
            · exact rest.1.known p (entered rfl)
            · exact all p later
          · rw [final, List.getLast?_cons]
            cases hashes.getLast? <;> rfl

end ChainState

/-! ## The exchange -/

/-- The message on the way between the two nodes. -/
inductive Flight where
  | getheaders (vHave : List Uint256)
  | headers (hashes : List Uint256)
  | nothing
  | broken
  deriving DecidableEq, Repr

def AfterHeaders.flight : AfterHeaders → Flight
  | .nothing => .nothing
  | .more vHave => .getheaders vHave
  | .refused _ => .broken
  | .nullPointer => .broken

/-- A node that asks and a node that answers. `answered` keeps the active chain of the latter at its
last answer, the genesis block first; nothing in the source reads it. -/
structure Exchange where
  requester : HeadersNode
  responder : ChainState
  flight : Flight
  answered : List Uint256

section Exchanging

variable (w : Surroundings) (source : HeaderSource)

/-- A node that answers for a chain of real blocks, whose hashes are not null. -/
structure Serves (s : ChainState) : Prop where
  indexes : s.Indexes source
  real : (0 : Uint256) ∉ s.chainActive

/-- The messages of the exchange, between which both nodes go on with whatever else they do: the one
that asks may learn of other headers and change its active chain, and the one that answers may come
to any other chain. -/
inductive ExchangeStep : Exchange → Exchange → Prop
  | requesterMoves (e : Exchange) (requester : HeadersNode)
      (grows : ChainState.Grows source e.requester.view.tree requester.view.tree) :
      ExchangeStep e { e with requester }
  | responderMoves (e : Exchange) (responder : ChainState) (serves : Serves source responder) :
      ExchangeStep e { e with responder }
  | answer (e : Exchange) (vHave hashes : List Uint256) (asked : e.flight = .getheaders vHave)
      (sent : e.responder.getheaders false vHave 0 = some hashes) :
      ExchangeStep e
        { e with flight := .headers hashes, answered := e.responder.chainActive.reverse }
  | receive (e : Exchange) (hashes : List Uint256) (verdicts : Verdicts)
      (sent : e.flight = .headers hashes) :
      ExchangeStep e
        { e with
          requester :=
            (e.requester.headers w false (hashes.map (source.offered verdicts))).1
          flight :=
            (e.requester.headers w false (hashes.map (source.offered verdicts))).2.flight }

/-- The first message of an exchange. -/
structure Exchange.Starts (e : Exchange) : Prop where
  requester : e.requester.view.tree.Indexes source
  responder : Serves source e.responder
  asks : ∃ pindex ∈ e.requester.view.tree.known, ∃ vHave,
    e.requester.view.tree.blockMap.getLocator e.requester.view.tree.vChain (some pindex) =
      some vHave ∧ e.flight = .getheaders vHave

/-- What the requester knows at every stage of the chain that was last answered for. -/
def Exchange.Covered (e : Exchange) : Prop :=
  match e.flight with
  | .getheaders vHave => vHave ≠ [] ∧ ∀ p ∈ vHave, p ∈ e.requester.view.tree.known
  | .headers hashes => ∃ k, hashes = (e.answered.drop k).take maxHeadersResults ∧
      ∀ p ∈ e.answered.take k, p ∈ e.requester.view.tree.known
  | .nothing => ∀ p ∈ e.answered, p ∈ e.requester.view.tree.known
  | .broken => True

structure Exchange.Keeps (e : Exchange) : Prop where
  requester : e.requester.view.tree.Indexes source
  responder : Serves source e.responder
  covered : e.Covered

variable {w source}

/-- A locator lists known blocks. -/
theorem ChainState.Indexes.locator_known {s : ChainState} (indexes : s.Indexes source)
    (pindex : Uint256) (known : pindex ∈ s.known) :
    ∃ rest, s.blockMap.getLocator s.vChain (some pindex) = some (pindex :: rest) ∧
      ∀ p ∈ pindex :: rest, p ∈ s.known := by
  obtain ⟨tip, inside, -, chain⟩ := indexes.chainTo
  obtain ⟨rest, made, located⟩ := BlockMap.getLocator_spaced indexes.skips tip inside pindex known
  refine ⟨rest, by rw [chain]; exact made, fun p inList => ?_⟩
  exact mem_branch_node _ _ _ indexes.skips.rooted pindex known p (located.ancestors p inList)

/-- What `headers` leaves: a larger index, and where it goes on or stops all of the headers in it. -/
theorem headers_outcome (genesis : w.hashGenesisBlock = source.hashGenesisBlock)
    (verdicts : Verdicts) (node : HeadersNode) (indexes : node.view.tree.Indexes source)
    (hashes : List Uint256) :
    ∃ node' after, node.headers w false (hashes.map (source.offered verdicts)) = (node', after) ∧
      ChainState.Grows source node.view.tree node'.view.tree ∧
      (after = .nothing → hashes.length < maxHeadersResults ∧
        ∀ p ∈ hashes, p ∈ node'.view.tree.known) ∧
      (∀ vHave, after = .more vHave → hashes.length = maxHeadersResults ∧
        ∃ last rest, hashes.getLast? = some last ∧ vHave = last :: rest ∧
          ∀ p ∈ vHave, p ∈ node'.view.tree.known) ∧
      (hashes.length ≤ maxHeadersResults → (∃ tree last, node.view.tree.acceptHeaders w none
        (hashes.map (source.offered verdicts)) = (tree, .ok last)) → after.flight ≠ .broken) := by
  have same : ChainState.Grows source node.view.tree node.view.tree :=
    ⟨indexes, fun p inside => inside⟩
  have accepted := indexes.acceptHeaders_grows w genesis verdicts hashes _ none
  rw [HeadersNode.headers, if_neg (by decide), List.length_map]
  by_cases many : hashes.length > maxHeadersResults
  · rw [if_pos many]
    exact ⟨node, _, rfl, same, by simp, by simp, fun few _ => by omega⟩
  rw [if_neg many]
  by_cases empty : hashes.length = 0
  · rw [if_pos empty]
    have none : hashes = [] := List.eq_nil_of_length_eq_zero empty
    exact ⟨node, _, rfl, same, fun _ => ⟨by rw [empty]; decide, by simp [none]⟩, by simp,
      fun _ _ => by simp [AfterHeaders.flight]⟩
  rw [if_neg empty]
  revert accepted
  rcases node.view.tree.acceptHeaders w none (hashes.map (source.offered verdicts)) with
    ⟨tree, failure | pindexLast⟩
  · rintro ⟨grows, -⟩
    refine ⟨_, _, rfl, grows, by simp, by simp, ?_⟩
    rintro - ⟨tree', last, accepted⟩
    cases accepted
  · rintro ⟨grows, all⟩
    obtain ⟨known, last⟩ := all pindexLast rfl
    dsimp only at grows known ⊢
    rw [Option.or_none] at last
    by_cases full : hashes.length = maxHeadersResults ∧ pindexLast ≠ none
    · rw [if_pos full]
      obtain ⟨p, final⟩ := Option.ne_none_iff_exists'.mp full.2
      have member : p ∈ hashes := List.mem_of_getLast? (last.symm.trans final)
      obtain ⟨rest, made, located⟩ := grows.indexes.locator_known p (known p member)
      rw [final, made]
      refine ⟨_, _, rfl, grows, by simp, ?_, fun _ _ => by simp [AfterHeaders.flight]⟩
      intro vHave same
      cases same
      exact ⟨full.1, p, rest, last.symm.trans final, rfl, located⟩
    · rw [if_neg full]
      refine ⟨_, _, rfl, grows, fun _ => ⟨?_, known⟩, by simp,
        fun _ _ => by simp [AfterHeaders.flight]⟩
      have some_last : pindexLast ≠ none := by
        rw [last]
        intro missing
        rw [List.getLast?_eq_none_iff] at missing
        exact empty (by rw [missing]; rfl)
      have differs : hashes.length ≠ maxHeadersResults := fun equal => full ⟨equal, some_last⟩
      omega

theorem exchange_keeps (genesis : w.hashGenesisBlock = source.hashGenesisBlock) (e e' : Exchange)
    (keeps : e.Keeps source) (step : ExchangeStep w source e e') : e'.Keeps source := by
  obtain ⟨indexes, serves, covered⟩ := keeps
  cases step with
  | requesterMoves requester grows =>
      refine ⟨grows.indexes, serves, ?_⟩
      rw [Exchange.Covered] at covered ⊢
      dsimp only at covered ⊢
      cases flight : e.flight with
      | getheaders vHave =>
          rw [flight] at covered
          exact ⟨covered.1, fun p inside => grows.known p (covered.2 p inside)⟩
      | headers hashes =>
          rw [flight] at covered
          obtain ⟨k, piece, known⟩ := covered
          exact ⟨k, piece, fun p inside => grows.known p (known p inside)⟩
      | nothing =>
          rw [flight] at covered
          exact fun p inside => grows.known p (covered p inside)
      | broken => trivial
  | responderMoves responder serves' => exact ⟨indexes, serves', covered⟩
  | answer vHave hashes asked sent =>
      rw [Exchange.Covered, asked] at covered
      obtain ⟨fork, -, active, origin, answer⟩ :=
        serves.indexes.getheaders_eq 0 serves.real vHave covered.1
      rw [answer, Option.some.injEq] at sent
      refine ⟨indexes, serves, e.responder.nHeight fork + 1, sent.symm, ?_⟩
      have known : fork ∈ e.requester.view.tree.known := by
        rcases origin with listed | rfl
        · exact covered.2 fork listed
        · exact indexes.genesis
      intro p inside
      -- up to the fork the two chains are the same
      obtain ⟨i, there⟩ := List.mem_iff_getElem?.mp inside
      have low : i < e.responder.nHeight fork + 1 := by
        have bound := (List.getElem?_eq_some_iff.mp there).1
        rw [List.length_take] at bound
        omega
      rw [List.getElem?_take_of_lt low] at there
      have height := serves.indexes.height_at i p there
      have below : p ∈ e.responder.branch fork := by
        obtain ⟨tip, inTree, chain⟩ := serves.indexes.active
        have member : p ∈ e.responder.chainActive :=
          List.mem_reverse.mp (List.mem_of_getElem? there)
        rw [chain] at member active
        exact branch_comparable _ _ _ serves.indexes.skips.rooted tip fork p inTree active member
          (show e.responder.nHeight p ≤ e.responder.nHeight fork by omega)
      rw [(indexes.same_branch serves.indexes fork known
        (serves.indexes.active_known fork active)).1] at below
      exact mem_branch_node _ _ _ indexes.skips.rooted fork known p below
  | receive hashes verdicts sent =>
      rw [Exchange.Covered, sent] at covered
      obtain ⟨k, piece, before⟩ := covered
      obtain ⟨node', after, processed, grows, stops, goes, -⟩ :=
        headers_outcome genesis verdicts e.requester indexes hashes
      rw [processed]
      refine ⟨grows.indexes, serves, ?_⟩
      rw [Exchange.Covered]
      dsimp only
      cases after with
      | nothing =>
          obtain ⟨short, known⟩ := stops rfl
          intro p inside
          rw [← List.take_append_drop k e.answered] at inside
          rcases List.mem_append.mp inside with early | late
          · exact grows.known p (before p early)
          · have whole : (e.answered.drop k).take maxHeadersResults = e.answered.drop k := by
              apply List.take_of_length_le
              rw [piece, List.length_take] at short
              omega
            rw [whole] at piece
            exact known p (piece ▸ late)
      | more vHave =>
          obtain ⟨-, last, rest, -, rfl, known⟩ := goes vHave rfl
          exact ⟨List.cons_ne_nil _ _, known⟩
      | refused failure => trivial
      | nullPointer => trivial

theorem starts_keeps (first : Exchange) (starts : first.Starts source) : first.Keeps source := by
  obtain ⟨pindex, known, vHave, made, asks⟩ := starts.asks
  obtain ⟨rest, made', located⟩ := starts.requester.locator_known pindex known
  rw [made', Option.some.injEq] at made
  refine ⟨starts.requester, starts.responder, ?_⟩
  rw [Exchange.Covered, asks, ← made]
  exact ⟨List.cons_ne_nil _ _, located⟩

theorem exchange_run_keeps (genesis : w.hashGenesisBlock = source.hashGenesisBlock)
    (first e : Exchange) (starts : first.Starts source)
    (run : Relation.ReflTransGen (ExchangeStep w source) first e) : e.Keeps source := by
  induction run with
  | refl => exact starts_keeps first starts
  | tail _ step ih => exact exchange_keeps genesis _ _ ih step

/-- When an exchange is over, every block of the chain that was last answered for is known, whatever
the two nodes have done in between and however their chains have changed. -/
theorem sync_complete (genesis : w.hashGenesisBlock = source.hashGenesisBlock) (first e : Exchange)
    (starts : first.Starts source)
    (run : Relation.ReflTransGen (ExchangeStep w source) first e) (ended : e.flight = .nothing) :
    ∀ p ∈ e.answered, p ∈ e.requester.view.tree.known := by
  have covered := (exchange_run_keeps genesis first e starts run).covered
  rw [Exchange.Covered, ended] at covered
  exact covered

/-! ## The exchange ends -/

/-- The node that asks has nothing against a chain. -/
structure Agrees (verdicts : Verdicts) (chain : List Uint256) (s : ChainState) : Prop where
  checkHeader : ∀ p ∈ chain, verdicts.checkHeader p = true
  contextualHeader : ∀ p ∈ chain, verdicts.contextualHeader p = true
  sound : ∀ p ∈ chain, p ∈ s.known → s.failed p = false

section Passing

variable {b : ChainState} {verdicts : Verdicts}

theorem ChainState.Indexes.prev_at (indexes : b.Indexes source) (k : Nat) (p q : Uint256)
    (here : b.chainActive.reverse[k]? = some p) (next : b.chainActive.reverse[k + 1]? = some q) :
    q ≠ source.hashGenesisBlock ∧ source.hashPrevBlock q = p := by
  have height := indexes.height_at (k + 1) q next
  have active : q ∈ b.chainActive := List.mem_reverse.mp (List.mem_of_getElem? next)
  have known := indexes.active_known q active
  have later : q ≠ source.hashGenesisBlock := by
    rintro rfl
    have zero := indexes.height_first
    omega
  have link : b.blockMap.pprev q = some (source.hashPrevBlock q) := indexes.parent q known later
  have parent := indexes.skips.rooted.closed q _ known link
  have above : b.nHeight q = b.nHeight (source.hashPrevBlock q) + 1 :=
    indexes.skips.rooted.above q _ known link
  have below : source.hashPrevBlock q ∈ b.branch q :=
    (mem_branch _ _ _ indexes.skips.rooted q _ known).mpr
      (.inr ⟨_, link, mem_branch_self _ _ _ indexes.skips.rooted _ parent⟩)
  have place := indexes.at_height _ (indexes.active_closed q _ active below)
  rw [show b.nHeight (source.hashPrevBlock q) = k by omega, here, Option.some.injEq] at place
  exact ⟨later, place.symm⟩

/-- A header on top of a known block of the chain is accepted. -/
theorem acceptBlockHeader_passes (genesis : w.hashGenesisBlock = source.hashGenesisBlock)
    (s : ChainState) (indexes : s.Indexes source) (chain : List Uint256)
    (agrees : Agrees verdicts chain s) (hash : Uint256) (member : hash ∈ chain)
    (parent : source.hashPrevBlock hash ∈ chain) (known : source.hashPrevBlock hash ∈ s.known) :
    ∃ t, s.acceptBlockHeader w (source.offered verdicts hash) = (t, true) ∧
      Agrees verdicts chain t := by
  have here : (source.offered verdicts hash).hash = hash := rfl
  rw [ChainState.acceptBlockHeader, here]
  by_cases held : hash ∈ s.known
  · rw [if_pos held, agrees.sound hash member held]
    exact ⟨s, rfl, agrees⟩
  · have later : hash ≠ w.hashGenesisBlock := by
      rintro rfl
      exact held (genesis ▸ indexes.genesis)
    have checked : (!(source.offered verdicts hash).checkHeader) = false := by
      rw [Bool.not_eq_false']
      exact agrees.checkHeader hash member
    have placed : ¬ (source.offered verdicts hash).hashPrevBlock ∉ s.known := not_not.mpr known
    have good : s.failed (source.offered verdicts hash).hashPrevBlock = false :=
      agrees.sound _ parent known
    have context : (!(source.offered verdicts hash).contextualHeader) = false := by
      rw [Bool.not_eq_false']
      exact agrees.contextualHeader hash member
    rw [if_neg held, checked, if_neg (by decide), if_neg later, if_neg placed, good,
      if_neg (by decide), context, if_neg (by decide)]
    refine ⟨_, rfl, agrees.checkHeader, agrees.contextualHeader, ?_⟩
    intro p inChain inside
    by_cases new : p = hash
    · rw [new, ChainState.failed, ChainState.nStatus, ChainState.add_entry, here, if_pos rfl,
        (ChainState.fresh_entry s (source.offered verdicts hash)).2.2]
      rfl
    · have before : p ∈ s.known := (List.mem_cons.mp inside).resolve_left new
      rw [ChainState.failed, ChainState.nStatus, ChainState.add_entry, here, if_neg new]
      exact agrees.sound p inChain before

theorem acceptHeaders_passes (genesis : w.hashGenesisBlock = source.hashGenesisBlock)
    (serves : b.Indexes source) (n k : Nat) (s : ChainState) (indexes : s.Indexes source)
    (agrees : Agrees verdicts b.chainActive s) (p : Uint256)
    (there : b.chainActive.reverse[k]? = some p) (known : p ∈ s.known)
    (pindexLast : Option Uint256) (continues : ∀ last ∈ pindexLast, last = p) :
    ∃ t last, s.acceptHeaders w pindexLast
      (((b.chainActive.reverse.drop (k + 1)).take n).map (source.offered verdicts)) = (t, .ok last) := by
  induction n generalizing k s p pindexLast with
  | zero => exact ⟨s, pindexLast, rfl⟩
  | succ n ih =>
      cases next : b.chainActive.reverse[k + 1]? with
      | none =>
          rw [List.drop_eq_nil_of_le (List.getElem?_eq_none_iff.mp next), List.take_nil]
          exact ⟨s, pindexLast, rfl⟩
      | some q =>
          obtain ⟨inside, here⟩ := List.getElem?_eq_some_iff.mp next
          obtain ⟨-, prev⟩ := serves.prev_at k p q there next
          have memberP : p ∈ b.chainActive := List.mem_reverse.mp (List.mem_of_getElem? there)
          have memberQ : q ∈ b.chainActive := List.mem_reverse.mp (List.mem_of_getElem? next)
          have parent : source.hashPrevBlock q ∈ s.known := prev ▸ known
          obtain ⟨t, accepted, agrees'⟩ := acceptBlockHeader_passes genesis s indexes b.chainActive
            agrees q memberQ (prev ▸ memberP) parent
          have grows := indexes.acceptBlockHeader_grows w genesis verdicts q
          have entered := ChainState.accept_header_known w s (source.offered verdicts q)
          rw [accepted] at grows entered
          have follows : pindexLast.any (· != (source.offered verdicts q).hashPrevBlock) = false := by
            cases pindexLast with
            | none => rfl
            | some last =>
                rw [Option.any_some, continues last rfl]
                exact bne_eq_false_iff_eq.mpr prev.symm
          rw [List.drop_eq_getElem_cons inside, List.take_succ_cons, here, List.map_cons,
            ChainState.acceptHeaders, follows, if_neg (by decide), accepted]
          exact ih (k + 1) t grows.indexes agrees' q next (entered rfl) (some q)
            (fun last same => (Option.mem_some.mp same).symm)

end Passing

variable (w source)

/-- The runs of an exchange in which the one node stays on its chain, which the other has nothing
against, with the number of `headers` received. -/
inductive SteadyRun (first : Exchange) : Nat → Exchange → Prop
  | start : SteadyRun first 0 first
  | requesterMoves (n : Nat) (e : Exchange) (run : SteadyRun first n e) (requester : HeadersNode)
      (grows : ChainState.Grows source e.requester.view.tree requester.view.tree) :
      SteadyRun first n { e with requester }
  | answer (n : Nat) (e : Exchange) (run : SteadyRun first n e) (vHave hashes : List Uint256)
      (asked : e.flight = .getheaders vHave)
      (sent : e.responder.getheaders false vHave 0 = some hashes) :
      SteadyRun first n
        { e with flight := .headers hashes, answered := e.responder.chainActive.reverse }
  | receive (n : Nat) (e : Exchange) (run : SteadyRun first n e) (hashes : List Uint256)
      (verdicts : Verdicts) (sent : e.flight = .headers hashes)
      (agrees : Agrees verdicts e.responder.chainActive e.requester.view.tree) :
      SteadyRun first (n + 1)
        { e with
          requester :=
            (e.requester.headers w false (hashes.map (source.offered verdicts))).1
          flight :=
            (e.requester.headers w false (hashes.map (source.offered verdicts))).2.flight }

variable {w source}

theorem SteadyRun.run (first e : Exchange) (n : Nat) (steady : SteadyRun w source first n e) :
    Relation.ReflTransGen (ExchangeStep w source) first e := by
  induction steady with
  | start => exact .refl
  | requesterMoves n e _ requester grows ih => exact ih.tail (.requesterMoves e requester grows)
  | answer n e _ vHave hashes asked sent ih => exact ih.tail (.answer e vHave hashes asked sent)
  | receive n e _ hashes verdicts sent _ ih => exact ih.tail (.receive e hashes verdicts sent)

/-- How far up the chain a run is after `n` messages of headers. -/
def Exchange.Advanced (e : Exchange) (n : Nat) : Prop :=
  match e.flight with
  | .getheaders vHave => ∃ fork ∈ e.responder.chainActive,
      e.responder.blockMap.findForkInGlobalIndex e.responder.vChain vHave = some fork ∧
        maxHeadersResults * n ≤ e.responder.nHeight fork
  | .headers hashes => ∃ fork ∈ e.responder.chainActive, fork ∈ e.requester.view.tree.known ∧
      hashes = (e.responder.chainActive.reverse.drop (e.responder.nHeight fork + 1)).take
        maxHeadersResults ∧ maxHeadersResults * n ≤ e.responder.nHeight fork
  | .nothing => ∃ done, n = done + 1 ∧ maxHeadersResults * done < e.responder.chainActive.length
  | .broken => False

theorem length_active {b : ChainState} (indexes : b.Indexes source) (p : Uint256)
    (member : p ∈ b.chainActive) : b.nHeight p < b.chainActive.length := by
  have place := indexes.at_height p member
  have bound := (List.getElem?_eq_some_iff.mp place).1
  rw [List.length_reverse] at bound
  exact bound

/-- A full message ends with the block that many above the fork, and is followed by its locator. -/
theorem full_headers {b : ChainState} (indexes : b.Indexes source) (h : Nat) (last : Uint256)
    (full : ((b.chainActive.reverse.drop (h + 1)).take maxHeadersResults).length =
      maxHeadersResults)
    (final : ((b.chainActive.reverse.drop (h + 1)).take maxHeadersResults).getLast? = some last) :
    last ∈ b.chainActive ∧ b.nHeight last = h + maxHeadersResults := by
  have positive : 0 < maxHeadersResults := by decide
  rw [List.getLast?_eq_getElem?, full, List.getElem?_take_of_lt (by omega), List.getElem?_drop] at final
  have height := indexes.height_at _ last final
  exact ⟨List.mem_reverse.mp (List.mem_of_getElem? final), by omega⟩

theorem steady_advances (genesis : w.hashGenesisBlock = source.hashGenesisBlock)
    (first e : Exchange) (starts : first.Starts source) (n : Nat)
    (steady : SteadyRun w source first n e) :
    e.responder = first.responder ∧ e.Advanced n := by
  induction steady with
  | start =>
      have covered := (starts_keeps first starts).covered
      obtain ⟨-, -, vHave, -, asks⟩ := starts.asks
      rw [Exchange.Covered, asks] at covered
      obtain ⟨fork, found, active, -, -⟩ :=
        starts.responder.indexes.getheaders_eq 0 starts.responder.real vHave covered.1
      refine ⟨rfl, ?_⟩
      rw [Exchange.Advanced, asks]
      exact ⟨fork, active, found, by omega⟩
  | requesterMoves n e _ requester grows ih =>
      refine ⟨ih.1, ?_⟩
      have advanced := ih.2
      rw [Exchange.Advanced] at advanced ⊢
      dsimp only
      cases flight : e.flight with
      | headers hashes =>
          rw [flight] at advanced
          obtain ⟨fork, active, known, rest⟩ := advanced
          exact ⟨fork, active, grows.known fork known, rest⟩
      | _ =>
          rw [flight] at advanced
          exact advanced
  | answer n e steady vHave hashes asked sent ih =>
      refine ⟨ih.1, ?_⟩
      have advanced := ih.2
      have keeps := exchange_run_keeps genesis first e starts steady.run
      have covered := keeps.covered
      rw [Exchange.Advanced, asked] at advanced
      rw [Exchange.Covered, asked] at covered
      obtain ⟨fork, active, found, far⟩ := advanced
      obtain ⟨fork', found', -, origin, answer⟩ :=
        keeps.responder.indexes.getheaders_eq 0 keeps.responder.real vHave covered.1
      rw [found, Option.some.injEq] at found'
      subst found'
      rw [answer, Option.some.injEq] at sent
      rw [Exchange.Advanced]
      refine ⟨fork, active, ?_, sent.symm, far⟩
      rcases origin with listed | rfl
      · exact covered.2 fork listed
      · exact keeps.requester.genesis
  | receive n e steady hashes verdicts sent agrees ih =>
      refine ⟨ih.1, ?_⟩
      have advanced := ih.2
      have keeps := exchange_run_keeps genesis first e starts steady.run
      rw [Exchange.Advanced, sent] at advanced
      obtain ⟨fork, active, known, piece, far⟩ := advanced
      have place := keeps.responder.indexes.at_height fork active
      have below := length_active keeps.responder.indexes fork active
      obtain ⟨node', after, processed, grows, -, goes, passes⟩ :=
        headers_outcome genesis verdicts e.requester keeps.requester hashes
      obtain ⟨tree, last, accepted⟩ := acceptHeaders_passes genesis keeps.responder.indexes
        maxHeadersResults (e.responder.nHeight fork) _ keeps.requester agrees fork place known none
        (by simp)
      rw [← piece] at accepted
      have few : hashes.length ≤ maxHeadersResults := by
        rw [piece, List.length_take]
        exact Nat.min_le_left _ _
      have whole := passes few ⟨tree, last, accepted⟩
      rw [processed, Exchange.Advanced]
      dsimp only
      cases after with
      | nothing => exact ⟨n, rfl, by omega⟩
      | more vHave =>
          obtain ⟨full, last, rest, final, rfl, knownLast⟩ := goes vHave rfl
          rw [piece] at full final
          obtain ⟨member, height⟩ := full_headers keeps.responder.indexes _ last full final
          have contained := (keeps.responder.indexes.contains_iff last).mpr member
          have inTree := keeps.responder.indexes.active_known last member
          refine ⟨last, member, ?_, ?_⟩
          · rw [BlockMap.findForkInGlobalIndex, if_pos ⟨inTree, contained⟩]
          · rw [height, Nat.mul_succ]
            omega
      | refused failure => exact absurd rfl whole
      | nullPointer => exact absurd rfl whole

/-- The exchange never breaks off, and it is over after the headers that it takes to send the chain
in full messages, and one message more at most. Until then there is an answer. -/
theorem sync_ends (genesis : w.hashGenesisBlock = source.hashGenesisBlock) (first e : Exchange)
    (starts : first.Starts source) (n : Nat) (steady : SteadyRun w source first n e) :
    n ≤ (first.responder.chainActive.length - 1) / maxHeadersResults + 1 ∧ e.flight ≠ .broken ∧
      ∀ vHave, e.flight = .getheaders vHave →
        ∃ hashes, e.responder.getheaders false vHave 0 = some hashes := by
  have keeps := exchange_run_keeps genesis first e starts steady.run
  have covered := keeps.covered
  obtain ⟨same, advanced⟩ := steady_advances genesis first e starts n steady
  have positive : 0 < maxHeadersResults := by decide
  rw [← same]
  have climbed : ∀ fork ∈ e.responder.chainActive,
      maxHeadersResults * n ≤ e.responder.nHeight fork →
        n ≤ (e.responder.chainActive.length - 1) / maxHeadersResults + 1 := by
    intro fork active far
    have below := length_active keeps.responder.indexes fork active
    have quotient : n ≤ (e.responder.chainActive.length - 1) / maxHeadersResults :=
      (Nat.le_div_iff_mul_le positive).mpr (by rw [Nat.mul_comm]; omega)
    omega
  rw [Exchange.Advanced] at advanced
  rw [Exchange.Covered] at covered
  cases flight : e.flight with
  | getheaders vHave =>
      rw [flight] at advanced covered
      obtain ⟨fork, active, -, far⟩ := advanced
      refine ⟨climbed fork active far, by simp, ?_⟩
      intro vHave' same
      cases same
      obtain ⟨fork', -, -, -, answer⟩ :=
        keeps.responder.indexes.getheaders_eq 0 keeps.responder.real vHave covered.1
      exact ⟨_, answer⟩
  | headers hashes =>
      rw [flight] at advanced
      obtain ⟨fork, active, -, -, far⟩ := advanced
      exact ⟨climbed fork active far, by simp, by simp⟩
  | nothing =>
      rw [flight] at advanced
      obtain ⟨done, rfl, far⟩ := advanced
      have quotient : done ≤ (e.responder.chainActive.length - 1) / maxHeadersResults :=
        (Nat.le_div_iff_mul_le positive).mpr (by rw [Nat.mul_comm]; omega)
      exact ⟨by omega, by simp, by simp⟩
  | broken =>
      rw [flight] at advanced
      exact advanced.elim

/-! ## Two nodes -/

theorem ChainState.Indexes.setTip {s : ChainState} (indexes : s.Indexes source) (tip : Uint256)
    (known : tip ∈ s.known) : (s.setTip (some tip)).Indexes source :=
  ⟨indexes.skips, indexes.links, indexes.genesis, indexes.first, tip, known, rfl⟩

/-- The first block alone. -/
theorem indexes_genesis (verdicts : Verdicts)
    (real : source.hashPrevBlock source.hashGenesisBlock ≠ source.hashGenesisBlock) :
    ((ChainState.start.addToBlockIndex
      (source.offered verdicts source.hashGenesisBlock)).setTip
        (some source.hashGenesisBlock)).Indexes source := by
  have empty : ChainState.start.blockMap.Skips fun p => p ∈ ChainState.start.known :=
    BlockMap.Skips.alone 0 (fun p inside => absurd inside List.not_mem_nil) rfl rfl
  have admits : ChainState.start.blockMap.Admits source.hashGenesisBlock
      (source.hashPrevBlock source.hashGenesisBlock) := .inl ⟨rfl, real⟩
  have new : source.hashGenesisBlock ∉ ChainState.start.known := List.not_mem_nil
  have walk := ChainState.addToBlockIndex_walk empty
    (source.offered verdicts source.hashGenesisBlock) new admits
  obtain ⟨m', added, skips, -⟩ := BlockMap.addToBlockIndex_skips empty _ _ admits
  rw [Option.some.inj (added.symm.trans walk)] at skips
  have parent := ChainState.fresh_parent ChainState.start
    (source.offered verdicts source.hashGenesisBlock)
  rw [if_neg (show _ ∉ ChainState.start.known from List.not_mem_nil)] at parent
  have link : (ChainState.start.addToBlockIndex
      (source.offered verdicts source.hashGenesisBlock)).pprev source.hashGenesisBlock = none := parent
  refine ⟨skips, ?_, List.mem_cons_self, link, _, List.mem_cons_self, rfl⟩
  intro p inside q below
  have here : p = source.hashGenesisBlock := List.mem_singleton.mp inside
  have below' : (ChainState.start.addToBlockIndex
      (source.offered verdicts source.hashGenesisBlock)).pprev p = some q := below
  rw [here, link] at below'
  cases below'

end Exchanging

namespace TwoNodes

/-- The block 2 on top of the block 1. -/
def source : HeaderSource := ⟨1, fun hash => if hash = 2 then 1 else 0, fun _ => 0⟩

theorem distinct (p q : Uint256) : p.toNat = q.toNat → p = q := BitVec.eq_of_toNat_eq

def surroundings : Surroundings := ⟨1, fun p => p.toNat, distinct, fun _ => false, fun _ => none⟩

def lenient : Verdicts := ⟨fun _ => true, fun _ => true⟩

def lower : ChainState :=
  (ChainState.start.addToBlockIndex (source.offered lenient 1)).setTip (some 1)

def upper : ChainState := (lower.addToBlockIndex (source.offered lenient 2)).setTip (some 2)

theorem lower_indexes : lower.Indexes source := indexes_genesis lenient (by decide)

theorem upper_indexes : upper.Indexes source :=
  (lower_indexes.add lenient 2 (by decide) (by decide)).indexes.setTip 2 (by decide)

def first : Exchange := ⟨⟨⟨lower, ∅⟩, ⟨none, 0, none⟩⟩, upper, .getheaders [1], []⟩

theorem first_starts : first.Starts source where
  requester := lower_indexes
  responder := ⟨upper_indexes, by decide +kernel⟩
  asks := ⟨1, by decide, [1], by decide +kernel, rfl⟩

def asked : Exchange :=
  { first with flight := .headers [2], answered := first.responder.chainActive.reverse }

def last : Exchange :=
  { asked with
    requester := (asked.requester.headers surroundings false ([2].map (source.offered lenient))).1
    flight :=
      (asked.requester.headers surroundings false ([2].map (source.offered lenient))).2.flight }

theorem sent : first.responder.getheaders false [1] 0 = some [2] := by decide +kernel

theorem unfailed (p : Uint256) (known : p ∈ lower.known) : lower.failed p = false := by
  have here : p = 1 := List.mem_singleton.mp known
  rw [here]
  decide +kernel

theorem agrees : Agrees lenient upper.chainActive lower where
  checkHeader _ _ := rfl
  contextualHeader _ _ := rfl
  sound p _ known := unfailed p known

theorem steady_asked : SteadyRun surroundings source first 0 asked :=
  .answer 0 first .start [1] [2] rfl sent

theorem steady : SteadyRun surroundings source first 1 last :=
  .receive 0 asked steady_asked [2] lenient rfl agrees

theorem locator_gap_lower :
    ∃ vHave fork, upper.blockMap.getLocator upper.vChain (some 2) = some vHave ∧
      vHave.length ≤ 12 + Nat.log 2 (upper.nHeight 2) ∧
      lower.blockMap.findForkInGlobalIndex lower.vChain vHave = some fork ∧ fork ∈ upper.branch 2 ∧
      fork ∈ lower.chainActive ∧
      ∀ common ∈ upper.branch 2, common ∈ lower.chainActive →
        upper.nHeight common - upper.nHeight fork ≤ upper.nHeight 2 - upper.nHeight common - 11 :=
  locator_gap upper_indexes lower_indexes 2 (by decide)

theorem sync_complete_two : 2 ∈ last.requester.view.tree.known :=
  sync_complete rfl first last first_starts steady.run (by decide +kernel) 2 (by decide +kernel)

theorem sync_ends_two : 1 ≤ (upper.chainActive.length - 1) / maxHeadersResults + 1 ∧
    last.flight ≠ .broken ∧ ∀ vHave, last.flight = .getheaders vHave →
      ∃ hashes, last.responder.getheaders false vHave 0 = some hashes :=
  sync_ends rfl first last first_starts 1 steady

end TwoNodes

end RoiCoin
