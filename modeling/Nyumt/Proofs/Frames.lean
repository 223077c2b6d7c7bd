import Nyumt.Proofs.Feed
import Nyumt.Toy

/-!
# The frames a client is sent

A message holds at most nine rows and a reader takes at most 30000 bytes, and nothing relates the
two. A request of 29908 bytes already makes a block whose message is not read (`not_fits_run`). The
messages are read just when no rows that go together weigh too much (`fits_run_iff`).
-/

namespace Nyumt

open Borsh

def OrderRow.size (r : OrderRow) : ℕ := 12 + r.data.length

def StatsRow.size (r : StatsRow) : ℕ := 12 + r.data.length + r.sig.length

namespace Outgoing

/-- The client's `read_request` takes the message. -/
def Fits (m : Outgoing) : Prop :=
  ∃ frame, toVec m.request = some frame ∧ readFrame 30000 frame = some frame

/-- The frame's length: the variant, the number of rows and the rows. -/
def size : Outgoing → ℕ
  | .blocks rows => 5 + (rows.map OrderRow.size).sum
  | .stats rows => 5 + (rows.map StatsRow.size).sum

def Small : Outgoing → Prop
  | .blocks rows => rows.length ≤ 9 ∧ ∀ r ∈ rows, r.Small
  | .stats rows => rows.length ≤ 9 ∧ ∀ r ∈ rows, r.Small

theorem length_block {x : RequestBlock} {b : Bytes} (h : toVec x = some b) :
    b.length = 12 + x.body.length := by
  obtain ⟨p, q, hp, hq, hlen⟩ := length_toVec_prod (x := (x.id, x.body)) h
  obtain rfl : leBytes 8 x.id.toNat = p := Option.some.inj hp
  rw [hlen, length_toVec_bytes hq, length_leBytes]
  dsimp only
  omega

theorem length_stat {x : Stat} {b : Bytes} (h : toVec x = some b) :
    b.length = 12 + x.data.length + x.sig.length := by
  obtain ⟨p, q, hp, hq, hlen⟩ := length_toVec_prod (x := (x.id, x.data, x.sig)) h
  obtain ⟨d, t, hd, ht, hq⟩ := length_toVec_prod hq
  obtain rfl : leBytes 4 x.id.toNat = p := Option.some.inj hp
  rw [hlen, hq, length_toVec_bytes hd, length_toVec_bytes ht, length_leBytes]
  dsimp only
  omega

theorem length_request {m : Outgoing} {b : Bytes} (h : toVec m.request = some b) :
    b.length = m.size := by
  cases m with
  | blocks rows =>
    obtain ⟨p, hp, rfl⟩ := of_variant h
    have hrows := length_toVec_list (fun x _ b hb => length_block hb) hp
    rw [List.length_cons, hrows, size, List.map_map]
    exact Nat.add_right_comm _ _ _
  | stats rows =>
    obtain ⟨p, hp, rfl⟩ := of_variant h
    have hrows := length_toVec_list (fun x _ b hb => length_stat hb) hp
    rw [List.length_cons, hrows, size, List.map_map]
    exact Nat.add_right_comm _ _ _

theorem Small.isSome {m : Outgoing} (h : m.Small) : ∃ b, toVec m.request = some b := by
  cases m with
  | blocks rows => exact Feed.isSome_blocks h.1 h.2
  | stats rows => exact Feed.isSome_stats h.1 h.2

theorem fits_iff {m : Outgoing} (h : m.Small) : m.Fits ↔ m.size ≤ 30000 := by
  obtain ⟨b, hb⟩ := h.isSome
  have hlen := length_request hb
  have hpos : 0 < m.size := by cases m <;> simp [size]
  have hne : b ≠ [] := by
    rintro rfl
    simp at hlen
    omega
  constructor
  · rintro ⟨b', hb', hread⟩
    obtain rfl : b = b' := by simpa [hb] using hb'
    unfold readFrame at hread
    split_ifs at hread with hle
    exact hlen ▸ hle.1
  · intro hle
    exact ⟨b, hb, if_pos ⟨hlen ▸ hle, hne⟩⟩

end Outgoing

namespace Feed

variable {s s' : Feed} {a : Act} {last : ℕ}

/-- What a scan finds does not weigh too much. -/
def InSize (s : Feed) : Act → Prop
  | .blocks => ∀ last, s.pc = .blocks last →
    ∀ rows ∈ s.groups last, (rows.map OrderRow.size).sum ≤ 29995
  | .stats rows => ∀ rs ∈ rows.chunks 9, (rs.map StatsRow.size).sum ≤ 29995
  | _ => True

instance (s : Feed) : DecidablePred s.InSize
  | .blocks => inferInstanceAs (Decidable (∀ last, s.pc = .blocks last → _))
  | .stats rows => inferInstanceAs (Decidable (∀ rs ∈ rows.chunks 9, _))
  | .append _ | .store _ _ _ _ | .height | .ready => isTrue trivial

structure FrameInv (s : Feed) : Prop where
  sorted : s.order.Pairwise fun r r' => r.id < r'.id
  small : ∀ r ∈ s.order, r.Small
  stats : ∀ r ∈ s.stats, r.Small
  last : ∀ last, s.pc = .blocks last → s.height < last ∧ ∃ r ∈ s.order, r.id = last
  fits : ∀ m ∈ s.sent, m.Fits

theorem small_of_mem_groups (hsmall : ∀ r ∈ s.order, r.Small) {rows : List OrderRow}
    (h : rows ∈ s.groups last) : (Outgoing.blocks rows).Small := by
  rcases List.mem_append.1 h with h | h
  all_goals
    refine ⟨List.length_of_mem_pieces h, fun r hr => hsmall r ?_⟩
    exact (List.mem_filter.1 (List.subset_of_mem_pieces h hr)).1

theorem small_of_mem_chunks {rows rs : List StatsRow} (hsmall : ∀ r ∈ rows, r.Small)
    (h : rs ∈ rows.chunks 9) : (Outgoing.stats rs).Small :=
  ⟨List.length_of_mem_pieces h, fun r hr => hsmall r (List.subset_of_mem_pieces h hr)⟩

/-- What a step sends, and the condition on it. -/
theorem sent_of_step (hi : FrameInv s) (hs : s.step a = some s') :
    ∃ new, s'.sent = s.sent ++ new ∧ ((∀ m ∈ new, m.Fits) ↔ s.InSize a) := by
  cases of_step hs with
  | append | store | taken | height | noBlocks | ready | noStats =>
    exact ⟨[], (List.append_nil _).symm, iff_of_true (List.forall_mem_nil _) trivial⟩
  | @blocks last hpc =>
    obtain ⟨hlt, hl⟩ := hi.last last hpc
    have hsend := sendBlocks_blocksFrom hi.sorted hi.small hlt hl
    have hfits : ∀ rows ∈ s.groups last, (Outgoing.blocks rows).Fits ↔
        (rows.map OrderRow.size).sum ≤ 29995 := by
      intro rows hrows
      rw [Outgoing.fits_iff (small_of_mem_groups hi.small hrows), Outgoing.size]
      omega
    refine ⟨_, rfl, ?_⟩
    rw [hsend, List.forall_mem_map]
    constructor
    · intro h last' hpc' rows hrows
      obtain rfl : last = last' := by simpa [hpc] using hpc'
      exact (hfits rows hrows).1 (h rows hrows)
    · exact fun h rows hrows => (hfits rows hrows).2 (h last hpc rows hrows)
  | @stats rows _ hperm =>
    have hsmall : ∀ r ∈ rows, r.Small := fun r hr =>
      hi.stats r (List.mem_filter.1 (hperm.mem_iff.1 hr)).1
    refine ⟨_, rfl, ?_⟩
    rw [sendStats_eq rows [] 0 s.timestamp (by simp) hsmall, List.nil_append,
      List.forall_mem_map]
    refine forall₂_congr fun rs hrs => ?_
    rw [Outgoing.fits_iff (small_of_mem_chunks hsmall hrs), Outgoing.size]
    omega

theorem FrameInv.step (hi : FrameInv s) (ha : a.Small) (hok : s.InSize a)
    (hs : s.step a = some s') : FrameInv s' := by
  have hfits : ∀ m ∈ s'.sent, m.Fits := by
    obtain ⟨new, hsent, hnew⟩ := sent_of_step hi hs
    rw [hsent]
    exact List.forall_mem_append.2 ⟨hi.fits, hnew.2 hok⟩
  cases of_step hs with
  | append hid =>
    refine ⟨Table.sorted_append hi.sorted fun r hr => by rw [hid r hr]; omega,
      List.forall_mem_append.2 ⟨hi.small, List.forall_mem_singleton.2 ha⟩, hi.stats, ?_, hfits⟩
    intro last hpc
    obtain ⟨hlt, r, hr, he⟩ := hi.last last hpc
    exact ⟨hlt, r, List.mem_append_left _ hr, he⟩
  | store =>
    exact ⟨hi.sorted, hi.small, List.forall_mem_append.2
      ⟨hi.stats, List.forall_mem_singleton.2 ha⟩, hi.last, hfits⟩
  | taken | noBlocks | noStats => exact hi
  | @height r _ hr hlt =>
    refine ⟨hi.sorted, hi.small, hi.stats, fun last hlast => ?_, hfits⟩
    obtain rfl : r.id = last := by simpa using hlast
    exact ⟨hlt, r, hr, rfl⟩
  | blocks | ready | stats => exact ⟨hi.sorted, hi.small, hi.stats, by simp, hfits⟩

/-- Every frame is read by the client just when no scan finds rows that together weigh too much. -/
theorem fits_run_iff {order : List OrderRow} {stats : List StatsRow} {settings : SessionSettings}
    {as : List Act} (hsorted : order.Pairwise fun r r' => r.id < r'.id)
    (hsmall : ∀ r ∈ order, r.Small) (hstats : ∀ r ∈ stats, r.Small) (has : ∀ a ∈ as, a.Small)
    (hr : Run.run step (init order stats settings) as = some s) :
    Run.Throughout step (fun s => ∀ m ∈ s.sent, m.Fits) (init order stats settings) as ↔
      Run.Along step InSize (init order stats settings) as := by
  refine Run.throughout_iff_along (I := FrameInv) (P := fun s => ∀ m ∈ s.sent, m.Fits)
    (c := fun _ a => a.Small) (fun s hi => hi.fits)
    (fun s a s' ha hok hs hi => hi.step ha hok hs) ?_ (Run.along_of_forall has) hr
    ⟨hsorted, hsmall, hstats, by simp [init], by simp [init]⟩
  intro s a s' _ hs hi hp
  obtain ⟨new, hsent, hnew⟩ := sent_of_step hi hs
  exact hnew.1 fun m hm => hp m (hsent ▸ List.mem_append_right _ hm)

theorem fits_run_iff_small :
    Run.Throughout step (fun s => ∀ m ∈ s.sent, m.Fits)
      (init [⟨0, [], []⟩, ⟨1, [], []⟩] [] ⟨0, 0⟩) [.height, .blocks] :=
  have hr : Run.run step (init [⟨0, [], []⟩, ⟨1, [], []⟩] [] ⟨0, 0⟩) [.height, .blocks]
      = some ⟨[⟨0, [], []⟩, ⟨1, [], []⟩], [], 1, 0, [.blocks [⟨1, [], []⟩]], .poll⟩ := by
    decide +kernel
  (fits_run_iff (by simp) (by simp [OrderRow.Small]) (by simp) (by simp [Act.Small]) hr).2
    (by decide +kernel)

end Feed

section Requested

variable {K : Crypto}

/-- The row is of a request that a master read and had nothing against. -/
def OrderRow.Requested (K : Crypto) (r : OrderRow) : Prop :=
  ∃ frame req sign raw userPk perms timestamp hash hasher t,
    readFrame 30000 frame = some frame
      ∧ fromSlice ClientRequest frame = some (.request ⟨req, sign⟩)
      ∧ toVec req = some raw ∧ verifyReq K t raw req userPk perms sign = .ok none
      ∧ serializeBlock K ⟨req, sign, userPk, timestamp⟩ none hasher = some (r.data, hash)

theorem toVec_request {req : List RequestType} {sign raw s : Bytes} (hreq : toVec req = some raw)
    (hsign : toVec sign = some s) :
    toVec (ClientRequest.request ⟨req, sign⟩) = some (3 :: (raw ++ s)) :=
  congrArg (Option.map (3 :: ·)) (toVec_pair hreq hsign)

/-- A row has 76 bytes more than the frame of its request: a key, a timestamp, a hash and a length,
less the variant. -/
theorem length_data {req : List RequestType} {sign frame data : Bytes} {userPk : PublicKey}
    {timestamp : UInt64} {vhash : Option Digest} {hasher : Option Bytes} {hash : Digest}
    (hf : toVec (ClientRequest.request ⟨req, sign⟩) = some frame)
    (hb : serializeBlock K ⟨req, sign, userPk, timestamp⟩ vhash hasher = some (data, hash)) :
    data.length = frame.length + 76 := by
  obtain ⟨p, hp, rfl⟩ := of_variant hf
  obtain ⟨a, b, ha, hb', hlen⟩ := length_toVec_prod (x := (req, sign)) hp
  simp only [serializeBlock, Option.bind_eq_bind, Option.bind_eq_some_iff, Option.pure_def,
    Option.some.injEq, Prod.mk.injEq] at hb
  obtain ⟨body, hbody, d, hd, rfl, -⟩ := hb
  obtain ⟨a', x, ha', hx, hbody⟩ := length_toVec_prod (x := (req, sign, userPk, timestamp)) hbody
  obtain ⟨b', y, hb'', hy, hx⟩ := length_toVec_prod hx
  obtain ⟨k, z, hk, hz, hy⟩ := length_toVec_prod hy
  obtain ⟨e, f, he, hf, hd⟩ := length_toVec_prod (x := (_, body)) hd
  obtain rfl := Option.some.inj (ha.symm.trans ha')
  obtain rfl := Option.some.inj (hb'.symm.trans hb'')
  obtain rfl : userPk.bytes = k := Option.some.inj ((PublicKey.toVec_eq userPk).symm.trans hk)
  obtain rfl : leBytes 8 timestamp.toNat = z := Option.some.inj hz
  have hkey : userPk.bytes.length = 33 := by
    obtain ⟨v⟩ := userPk
    simp [PublicKey.bytes]
  have hhash : e.length = 32 := by
    rw [← Option.some.inj he, List.Vector.toList_length]
  rw [hd, hhash, length_toVec_bytes hf, hbody, hx, hy, hkey, length_leBytes, List.length_cons, hlen]
  omega

theorem exists_serializeBlock {req : List RequestType} {raw : Bytes} (sign : Bytes) (k : PublicKey)
    (timestamp : UInt64) (hraw : toVec req = some raw) (hlen : raw.length + sign.length < 256 ^ 3) :
    ∃ data hash, serializeBlock K ⟨req, sign, k, timestamp⟩ none none = some (data, hash) := by
  obtain ⟨s, hs⟩ := Option.isSome_iff_exists.1 (toVec_bytes_isSome (by omega : sign.length < _))
  obtain ⟨body, hbody, hsmall⟩ : ∃ body, toVec (BodyData.mk req sign k timestamp) = some body
      ∧ body.length < 256 ^ 4 := by
    refine ⟨_, toVec_pair hraw (toVec_pair hs (toVec_pair (PublicKey.toVec_eq k) rfl)), ?_⟩
    have hkey : k.bytes.length = 33 := by
      obtain ⟨v⟩ := k
      simp [PublicKey.bytes]
    simp only [List.length_append, length_leBytes, hkey, length_toVec_bytes hs]
    omega
  obtain ⟨c, hc⟩ := Option.isSome_iff_exists.1 (toVec_bytes_isSome hsmall)
  have hblock : ∀ hash : Digest, toVec (Block.mk hash body) = some (hash.toList ++ c) :=
    fun hash => toVec_pair rfl hc
  refine ⟨(K.sha256 ([] ++ body)).toList ++ c, K.sha256 ([] ++ body), ?_⟩
  simp only [serializeBlock, hbody, Option.bind_eq_bind, Option.bind_some, hblock]
  rfl

end Requested

namespace Feed

/-- The root user edits its row, 680 times. -/
def longRequest : List RequestType :=
  .replicate 680 (.order (.editUser "" (toyKey 1) [.root]))

def longSign : Bytes := .replicate 64 0

theorem toVec_longRequest : ∃ raw, toVec longRequest = some raw ∧ raw.length = 29924 := by
  have hone : ∃ b, toVec (RequestType.order (.editUser "" (toyKey 1) [.root])) = some b
      ∧ b.length = 44 := ⟨_, rfl, by decide +kernel⟩
  obtain ⟨b, hb, hlen⟩ := hone
  have hsome : ∀ x ∈ longRequest, (toVec x).isSome := by
    intro x hx
    rw [List.eq_of_mem_replicate hx, hb]
    rfl
  have hsize : ∀ x ∈ longRequest, ∀ c, toVec x = some c → c.length = (fun _ => 44) x := by
    intro x hx c hc
    rw [List.eq_of_mem_replicate hx, hb, Option.some.injEq] at hc
    exact hc ▸ hlen
  have hcount : longRequest.length < 256 ^ 4 := by
    rw [longRequest, List.length_replicate]
    decide
  obtain ⟨raw, hraw⟩ := Option.isSome_iff_exists.1 (toVec_list_isSome hcount hsome)
  refine ⟨raw, hraw, ?_⟩
  rw [length_toVec_list hsize hraw, longRequest, List.map_replicate, List.sum_replicate]
  rfl

/-- The request is read and accepted, and makes a block. -/
theorem exists_longRow :
    ∃ row : OrderRow, row.Requested lax ∧ row.id = 1 ∧ row.data.length = 30069 := by
  obtain ⟨raw, hraw, hlen⟩ := toVec_longRequest
  have hsign : toVec longSign = some (leBytes 4 64 ++ longSign) := by decide +kernel
  obtain ⟨frame, hframe, hsize⟩ : ∃ frame,
      toVec (ClientRequest.request ⟨longRequest, longSign⟩) = some frame ∧ frame.length = 29993 :=
    ⟨_, toVec_request hraw hsign, by simp [hlen, longSign]⟩
  have hverify : verifyReq lax toyGenesis.toTables raw longRequest (toyKey 1) [.root] longSign
      = .ok none := by
    refine verifyReq_eq_ok_none.2 ⟨rfl, fun o ho => ?_⟩
    obtain rfl := RequestType.order.inj (List.eq_of_mem_replicate ho)
    have hentity : toyGenesis.entityWithPubkeyExists (toyKey 1).bytes = true := by decide +kernel
    exact ⟨hentity, by decide, .inl (by decide)⟩
  obtain ⟨data, hash, hdata⟩ := exists_serializeBlock (K := lax) longSign (toyKey 1) 0 hraw
    (by rw [hlen]; decide)
  refine ⟨⟨1, data, hash.toList⟩, ⟨frame, longRequest, longSign, raw, toyKey 1, [.root], 0, hash,
    none, toyGenesis.toTables, if_pos ⟨by rw [hsize]; decide, ?_⟩, ?_, hraw, hverify, hdata⟩,
    rfl, ?_⟩
  · have hreset : reset longRequest = longRequest := List.map_replicate
    have hrequest : reset (ClientRequest.request ⟨longRequest, longSign⟩)
        = .request ⟨reset longRequest, reset longSign⟩ := rfl
    rw [fromSlice_of_ser hframe, hrequest, hreset, reset_eq]
  · exact (length_data hframe hdata).trans (by rw [hsize])
  · rintro rfl
    simp at hsize

section TwoRows

variable {r r' : OrderRow}

/-- Of two rows the client has the first, and a poll has read the second's id. -/
def twoRows (r r' : OrderRow) : Feed := { init [r, r'] [] ⟨0, 0⟩ with pc := .blocks 1 }

theorem frameInv_twoRows (h : r.id = 0) (h' : r'.id = 1) (hsmall : r.Small) (hsmall' : r'.Small) :
    FrameInv (twoRows r r') where
  sorted := List.pairwise_pair.2 (by omega)
  small := List.forall_mem_cons.2 ⟨hsmall, List.forall_mem_singleton.2 hsmall'⟩
  stats := List.forall_mem_nil _
  last last hpc := by
    obtain rfl : 1 = last := by simpa [twoRows] using hpc
    have hzero : (0 : Int64).toInt < 1 := by decide
    exact ⟨hzero, r', List.mem_cons_of_mem _ List.mem_cons_self, h'⟩
  fits := List.forall_mem_nil _

theorem mem_groups_twoRows (h : r.id = 0) (h' : r'.id = 1) : [r'] ∈ (twoRows r r').groups 1 := by
  have hrow : Table.between OrderRow.id 0 (1 : ℕ) [r, r'] = [r'] := by simp [Table.between, h, h']
  have hchunks : (Table.between OrderRow.id 0 (1 : ℕ) [r, r']).chunks 9 = [[r']] := by
    rw [hrow, List.chunks_of_le (by simp) (by simp)]
  exact List.mem_append_left _ (hchunks ▸ List.mem_cons_self)

/-- A row of 29984 bytes makes a message that the client does not read. -/
theorem not_fits_twoRows (h : r.id = 0) (h' : r'.id = 1) (hsmall : r.Small) (hsmall' : r'.Small)
    (hlarge : 29983 < r'.data.length) :
    ∃ s, Run.run step (init [r, r'] [] ⟨0, 0⟩) [.height, .blocks] = some s
      ∧ ∃ m ∈ s.sent, ¬ m.Fits := by
  have hheight : step (init [r, r'] [] ⟨0, 0⟩) .height = some (twoRows r r') := by
    obtain ⟨_, data, hash⟩ := r
    obtain ⟨_, data', hash'⟩ := r'
    subst h h'
    rfl
  obtain ⟨s, hs⟩ : ∃ s, step (twoRows r r') .blocks = some s := ⟨_, rfl⟩
  obtain ⟨new, hsent, hnew⟩ := sent_of_step (frameInv_twoRows h h' hsmall hsmall') hs
  refine ⟨s, by rw [Run.run_cons _ hheight, Run.run_cons _ hs, Run.run_nil], ?_⟩
  by_contra! hall
  have hin : (twoRows r r').InSize .blocks :=
    hnew.1 fun m hm => hall m (hsent ▸ List.mem_append_right _ hm)
  have hsize := hin 1 rfl [r'] (mem_groups_twoRows h h')
  simp only [List.map_singleton, List.sum_singleton, OrderRow.size] at hsize
  omega

end TwoRows

/-- A request of 29993 bytes, which is read, makes a block that the client does not read. -/
theorem not_fits_run :
    ∃ row : OrderRow, row.Requested lax ∧ row.id = 1
      ∧ ∃ s, Run.run step (init (toyGenesis.order ++ [row]) [] ⟨0, 0⟩) [.height, .blocks] = some s
        ∧ ∃ m ∈ s.sent, ¬ m.Fits := by
  obtain ⟨row, hreq, hid, hlen⟩ := exists_longRow
  obtain ⟨r, ho, hr⟩ : ∃ r, toyGenesis.order = [r] ∧ r.id = 0 :=
    List.map_eq_singleton_iff.1 (by decide +kernel)
  have hsmall : ∀ r ∈ toyGenesis.order, r.Small := by decide +kernel
  refine ⟨row, hreq, hid, ?_⟩
  rw [ho, List.singleton_append]
  exact not_fits_twoRows hr hid (hsmall r (ho ▸ List.mem_cons_self))
    (hlen.trans_lt (by decide)) (hlen ▸ by decide)

end Feed

end Nyumt
