import Nyumt.Collector
import Nyumt.Toy

/-!
# Reports follow the config

The collector takes the config for unchanged where its hash is that of the copy. A config has the
hash zero as long as it is the one that was loaded, and else the hash of its encoding, for whoever
writes a config calls `update` (`Stamped`). So equal hashes mean equal values, and each report asks
for what the config said when it was read after the report before (`reports_run`).
-/

namespace Nyumt

open Borsh

instance : Plain DbStruct :=
  ⟨fun d => congrArg (fun (c, m, n, s) => (⟨c, m, n, s⟩ : DbStruct))
    (reset_eq (d.cpu, d.memory, d.network, d.storage))⟩

namespace SharedConf

section Hashes

variable (K : Crypto)

/-- The encodings that are hashed where these actions are taken: of the default config, and of the
ones written. -/
def Hashed (as : List Act) : Set Bytes :=
  {b | toVec (NodeConfig.default K) = some b ∨ ∃ a ∈ as, ∃ c, a.conf = some c ∧ toVec c = some b}

/-- It is the config that was loaded, without a hash, or has the hash of its encoding. -/
def Stamped (localConf : Option Bytes) (as : List Act) (c : NodeConfig) : Prop :=
  (localConf.bind (fromSlice NodeConfig) = some c ∧ c.hash = zeroHash)
    ∨ ∃ b ∈ Hashed K as, toVec c = some b ∧ c.hash = K.sha256 b

/-- SHA-256 tells these encodings apart, and from the missing hash. -/
structure Separates (encodings : Set Bytes) : Prop where
  injective : Set.InjOn K.sha256 encodings
  ne_zero : ∀ b ∈ encodings, K.sha256 b ≠ zeroHash

end Hashes

variable {K : Crypto} {localConf : Option Bytes} {as : List Act}

theorem stamped_update {c : NodeConfig} {b : Bytes} (hc : toVec c = some b) (hb : b ∈ Hashed K as) :
    Stamped K localConf as (c.update K) :=
  .inr ⟨b, hb, hc, by rw [NodeConfig.update, hc, Option.getD_some]⟩

theorem hash_of_fromSlice {c : NodeConfig} {b : Bytes} (h : fromSlice NodeConfig b = some c) :
    c.hash = zeroHash := by
  rw [← (of_fromSlice h).1]
  rfl

theorem stamped_load : Stamped K localConf as (.load K localConf) := by
  unfold NodeConfig.load
  rcases hload : localConf.bind (fromSlice NodeConfig) with _ | c
  · obtain ⟨b, hb⟩ : ∃ b, toVec (NodeConfig.default K) = some b := ⟨_, rfl⟩
    exact stamped_update hb (.inl hb)
  · obtain ⟨b, -, hb⟩ := Option.bind_eq_some_iff.1 hload
    exact .inl ⟨hload, hash_of_fromSlice hb⟩

/-- What is written comes from a message, so it has an encoding. -/
theorem Act.stamped {a : Act} {c : NodeConfig} (ha : a ∈ as) (h : a.conf = some c) :
    Stamped K localConf as (c.update K) := by
  obtain ⟨b, hb⟩ : ∃ b, toVec c = some b := by
    cases a with
    | updateConfig request =>
      simp only [conf] at h
      split at h
      · rename_i config hreq
        obtain rfl := Option.some.inj h
        have hser : toVec (PeerRequest.updateConfig config) = (toVec config).map (8 :: ·) := rfl
        obtain ⟨b, hb, -⟩ := Option.map_eq_some_iff.1 (hser.symm.trans (ser_of_fromSlice hreq))
        exact ⟨b, hb⟩
      · cases h
    | sync conf => exact ⟨conf, ser_of_fromSlice h⟩
    | collect => cases h
  exact stamped_update hb (.inr ⟨a, ha, c, h, hb⟩)

theorem Stamped.dbStruct_eq {c c' : NodeConfig} (hsep : Separates K (Hashed K as))
    (hc : Stamped K localConf as c) (hc' : Stamped K localConf as c') (h : c.hash = c'.hash) :
    c.dbStruct = c'.dbStruct := by
  rcases hc with ⟨hload, hzero⟩ | ⟨b, hb, hser, hhash⟩
    <;> rcases hc' with ⟨hload', hzero'⟩ | ⟨b', hb', hser', hhash'⟩
  · rw [Option.some.inj (hload.symm.trans hload')]
  · exact absurd (hhash'.symm.trans (h.symm.trans hzero)) (hsep.ne_zero b' hb')
  · exact absurd (hhash.symm.trans (h.trans hzero')) (hsep.ne_zero b hb)
  · obtain rfl : b = b' := hsep.injective hb hb' (hhash.symm.trans (h.trans hhash'))
    have hreset : reset c.dbStruct = reset c'.dbStruct :=
      congrArg NodeConfig.dbStruct (reset_eq_of_toVec_eq hser hser')
    rwa [reset_eq, reset_eq] at hreset

/-- What the collector has is of a config there was, and says what the one it has read since its
last report says. -/
structure Following (K : Crypto) (localConf : Option Bytes) (as : List Act) (s : SharedConf) :
    Prop where
  conf : Stamped K localConf as s.conf
  copy : ∀ c, s.collector = .tick c ∨ s.collector = .compare c →
    ∃ r, Stamped K localConf as r ∧ c.hash = r.hash ∧ c.dbStruct = r.dbStruct
  read : ∀ c, s.collector = .tick c → ∃ r, s.lastRead = some r ∧ c.dbStruct = r.dbStruct

theorem following_start : Following K localConf as (start K localConf) where
  conf := stamped_load
  copy := by rintro c (h | h) <;> cases h
  read := nofun

/-- A copy is of the config it is made of. -/
theorem of_copy {conf : NodeConfig} {period : Option UInt64} {c : Collecting}
    (h : Collector.copy conf period = .tick c ∨ Collector.copy conf period = .compare c) :
    c.hash = conf.hash ∧ c.dbStruct = conf.dbStruct := by
  rcases period with _ | period
  · rcases h with h | h <;> cases h
  · rcases h with h | h
    · obtain rfl := Collector.tick.inj h
      exact ⟨rfl, rfl⟩
    · cases h

theorem following_copy {conf : NodeConfig} (h : Stamped K localConf as conf)
    (period : Option UInt64) : Following K localConf as ⟨conf, .copy conf period, some conf⟩ where
  conf := h
  copy _ hc := ⟨conf, h, of_copy hc⟩
  read _ hc := ⟨conf, rfl, (of_copy (.inl hc)).2⟩

theorem following_step {s s' : SharedConf} {a : Act} (hsep : Separates K (Hashed K as))
    (ha : a ∈ as) (h : s.step K a = some s') (hi : Following K localConf as s) :
    Following K localConf as s' := by
  cases a with
  | updateConfig request =>
    obtain ⟨config, hconf, rfl⟩ := Option.map_eq_some_iff.1 h
    exact ⟨Act.stamped ha hconf, hi.copy, hi.read⟩
  | sync conf =>
    obtain ⟨config, hconf, rfl⟩ := Option.map_eq_some_iff.1 h
    exact ⟨Act.stamped ha hconf, hi.copy, hi.read⟩
  | collect =>
    obtain ⟨conf, collector, lastRead⟩ := s
    obtain ⟨c', hstep, rfl⟩ := Option.map_eq_some_iff.1 h
    rcases collector with _ | c₀ | c₀ | c₀ | _
    case start | reload =>
      obtain rfl := Option.some.inj hstep
      exact following_copy hi.conf _
    case tick =>
      obtain rfl := Option.some.inj hstep
      exact ⟨hi.conf, fun c hc => hi.copy c (hc.symm.imp (by simp) (by simp)), nofun⟩
    case compare =>
      obtain rfl := Option.some.inj hstep
      obtain ⟨r, hr, hhash, hdb⟩ := hi.copy c₀ (.inr rfl)
      by_cases heq : conf.hash = c₀.hash
      · -- the hashes agree, so the config says what the copy says
        have hdb' := hr.dbStruct_eq hsep hi.conf (hhash.symm.trans heq.symm)
        simp only [heq, ne_eq, not_true_eq_false, ↓reduceIte]
        refine ⟨hi.conf, fun c hc => ?_, fun c hc => ?_⟩
        · exact hi.copy c (.inr (by simpa using hc))
        · obtain rfl := Collector.tick.inj hc
          exact ⟨conf, rfl, hdb.trans hdb'⟩
      · simp only [heq, ne_eq, not_false_eq_true, ↓reduceIte]
        exact ⟨hi.conf, by simp, nofun⟩
    case panicked => cases hstep

/-- Each report asks for what the config said when it was read, since the report before. -/
def Reports (s : SharedConf) (a : Act) : Prop :=
  ∀ d, s.report a = some d → ∃ c, s.lastRead = some c ∧ d = c.dbStruct

/-- In any order of ticks and writes, each report asks for what the config says that was read at the
end of the tick before. -/
theorem reports_run (localConf : Option Bytes) (as : List Act) (hsep : Separates K (Hashed K as)) :
    Run.Along (step K) Reports (start K localConf) as := by
  have hall : Run.Along (step K) (fun _ a => a ∈ as) (start K localConf) as :=
    Run.along_of_forall fun a ha => ha
  refine (Run.along_induction (fun _ _ _ ha h hi => following_step hsep ha h hi) hall
    following_start).mono fun s a ⟨hi, _⟩ d hd => ?_
  cases a with
  | updateConfig request => cases hd
  | sync conf => cases hd
  | collect =>
    rcases hcol : s.collector with _ | c | c | c | _ <;> simp only [report, hcol] at hd <;> cases hd
    exact hi.read c hcol

section Toy

def toyConf (o : CpuOID) : NodeConfig := ⟨zeroHash, 5, ⟨[o], [], [], []⟩⟩

/-- A config arrives between two ticks; the second one reports by it. -/
def toyTicks : List Act :=
  [.collect, .collect, .updateConfig ((toVec (PeerRequest.updateConfig (toyConf .idle))).getD []),
    .collect, .collect, .collect]

theorem mem_hashed_toyTicks {b : Bytes} (hb : b ∈ Hashed toy toyTicks) :
    b = (toVec (NodeConfig.default toy)).getD [] ∨ b = (toVec (toyConf .idle)).getD [] := by
  have hconf : ∀ a ∈ toyTicks, a.conf = none ∨ a.conf = some (toyConf .idle) := by
    decide +kernel
  rcases hb with hb | ⟨a, ha, c, hc, hb⟩
  · exact .inl (by rw [hb, Option.getD_some])
  · rcases hconf a ha with hnone | hsome
    · cases hnone.symm.trans hc
    · obtain rfl := Option.some.inj (hsome.symm.trans hc)
      exact .inr (by rw [hb, Option.getD_some])

theorem reports_run_toyTicks :
    Run.Along (step toy) Reports (start toy (toVec (toyConf .user))) toyTicks := by
  have hne : toy.sha256 ((toVec (NodeConfig.default toy)).getD [])
      ≠ toy.sha256 ((toVec (toyConf .idle)).getD []) := by
    decide +kernel
  have hzero : toy.sha256 ((toVec (NodeConfig.default toy)).getD []) ≠ zeroHash
      ∧ toy.sha256 ((toVec (toyConf .idle)).getD []) ≠ zeroHash := by
    decide +kernel
  refine reports_run _ _ ⟨fun b hb b' hb' h => ?_, fun b hb => ?_⟩
  · rcases mem_hashed_toyTicks hb with rfl | rfl <;> rcases mem_hashed_toyTicks hb' with rfl | rfl
    · rfl
    · exact absurd h hne
    · exact absurd h.symm hne
    · rfl
  · rcases mem_hashed_toyTicks hb with rfl | rfl
    · exact hzero.1
    · exact hzero.2

example : (Run.run (step toy) (start toy (toVec (toyConf .user))) toyTicks.dropLast).any fun s =>
    s.report .collect = some (toyConf .idle).dbStruct := by
  decide +kernel

end Toy

end SharedConf

end Nyumt
