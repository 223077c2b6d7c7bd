import Nyumt.Oid

/-!
# What texts are taken for objects

`parse_oid` gets every text of three parts right (`parseParts_three`). Its test for another number
of parts is never true: it panics at a part that is not there, and takes no notice of one too many
(`parse_meets_iff`).
-/

namespace Nyumt

variable {U : Uppercase}

namespace Uppercase

theorem upper_of_ascii {s : String} (h : s.toList.all fun c => c.toNat < 128) :
    U.upper s = .ofList (s.toList.map Char.toUpper) := by
  have hascii : ∀ c ∈ s.toList, c.toNat < 128 := by
    simpa only [List.all_eq_true, decide_eq_true_eq] using h
  have hmap : ∀ cs : List Char, (∀ c ∈ cs, c.toNat < 128) →
      cs.flatMap U.map = cs.map Char.toUpper := by
    intro cs hcs
    induction cs with
    | nil => rfl
    | cons c cs ih =>
      rw [List.flatMap_cons, U.ascii c (hcs c List.mem_cons_self),
        ih fun c hc => hcs c (List.mem_cons_of_mem _ hc), List.map_cons, List.singleton_append]
  rw [upper, hmap _ hascii]

theorem same_iff {s t u : String} (ht : t.toList.all fun c => c.toNat < 128)
    (hu : .ofList (t.toList.map Char.toUpper) = u) : U.Same s t ↔ U.upper s = u := by
  rw [Same, upper_of_ascii ht, hu]

theorem same_cpu {s : String} : U.Same s "cpu" ↔ U.upper s = "CPU" :=
  same_iff (by decide) (by decide)

theorem same_memory {s : String} : U.Same s "memory" ↔ U.upper s = "MEMORY" :=
  same_iff (by decide) (by decide)

theorem same_network {s : String} : U.Same s "network" ↔ U.upper s = "NETWORK" :=
  same_iff (by decide) (by decide)

theorem same_storage {s : String} : U.Same s "storage" ↔ U.upper s = "STORAGE" :=
  same_iff (by decide) (by decide)

end Uppercase

namespace Items

variable {O : Type} (I : Items O)

theorem upper_name (o : O) : U.upper (I.name o) = I.name o := by
  have hup : ∀ c ∈ (I.name o).toList, c.toNat < 128 ∧ c.toUpper = c := by
    simpa only [List.all_eq_true, decide_eq_true_eq] using I.upper o (I.mem o)
  have hascii : (I.name o).toList.all fun c => c.toNat < 128 := by
    simpa only [List.all_eq_true, decide_eq_true_eq] using fun c hc => (hup c hc).1
  rw [Uppercase.upper_of_ascii hascii, List.map_congr_left fun c hc => (hup c hc).2, List.map_id',
    String.ofList_toList]

theorem same_name {s : String} {o : O} : U.Same s (I.name o) ↔ U.upper s = I.name o := by
  rw [Uppercase.Same, I.upper_name]

/-- The text of an item, or of all of them. -/
def Text (U : Uppercase) : Option O → String → Prop
  | none, i => i = "*"
  | some o, i => U.Same i (I.name o)

theorem find_eq_some {s : String} {o : O} :
    (I.all.find? fun o => I.name o = s) = some o ↔ I.name o = s := by
  refine ⟨fun h => by simpa using List.find?_some h, fun h => ?_⟩
  rcases hf : I.all.find? fun o => I.name o = s with _ | o'
  · have := List.find?_eq_none.1 hf o (I.mem o)
    simp [h] at this
  · have hname : I.name o' = s := by simpa using List.find?_some hf
    rw [I.injective o' (I.mem o') o (I.mem o) (hname.trans h.symm)]

end Items

namespace OID

theorem parseItem_eq_ok {O : Type} (I : Items O) (wrap : Option O → OID) {keys : List String}
    {item : String} (subclass : String) (h : keys[2]? = some item) :
    ∃ r, parseItem U I wrap keys subclass = some r
      ∧ ∀ oid, r = .ok oid ↔ ∃ o, oid = wrap o ∧ I.Text U o item := by
  simp only [parseItem, h, Option.bind_eq_bind, Option.bind_some]
  split_ifs with hstar
  · refine ⟨_, rfl, fun oid => ?_⟩
    rw [Except.ok.injEq]
    constructor
    · rintro rfl
      exact ⟨none, rfl, hstar⟩
    · rintro ⟨_ | o, rfl, ho⟩
      · rfl
      · have hup : U.upper "*" = "*" := Uppercase.upper_of_ascii (by decide)
        rw [Items.Text, I.same_name, hstar, hup] at ho
        exact absurd ho.symm (I.ne_star o (I.mem o))
  · have htext : ∀ o, I.Text U o item ↔ ∃ o', o = some o' ∧ I.name o' = U.upper item := by
      rintro (_ | o)
      · simp [Items.Text, hstar]
      · simp [Items.Text, I.same_name, eq_comm]
    split
    · rename_i o ho
      rw [I.find_eq_some] at ho
      refine ⟨_, rfl, fun oid => ?_⟩
      rw [Except.ok.injEq]
      constructor
      · rintro rfl
        exact ⟨some o, rfl, (htext _).2 ⟨o, rfl, ho⟩⟩
      · rintro ⟨p, rfl, hp⟩
        obtain ⟨o', rfl, ho'⟩ := (htext _).1 hp
        rw [I.injective o (I.mem o) o' (I.mem o') (ho.trans ho'.symm)]
    · rename_i hnone
      refine ⟨_, rfl, fun oid => iff_of_false (by simp) ?_⟩
      rintro ⟨p, rfl, hp⟩
      obtain ⟨o, rfl, ho⟩ := (htext _).1 hp
      rw [I.find_eq_some.2 ho] at hnone
      cases hnone

/-- The parts of a text that stands for an object. -/
def Denotes (U : Uppercase) (keys : List String) : OID → Prop
  | .all => keys = ["0", "*"] ∨ keys = ["0", "*", "*"]
  | .cpu o => ∃ c i, keys = ["0", c, i] ∧ U.Same c "cpu" ∧ CpuOID.items.Text U o i
  | .memory o => ∃ c i, keys = ["0", c, i] ∧ U.Same c "memory" ∧ MemoryOID.items.Text U o i
  | .network o => ∃ c i, keys = ["0", c, i] ∧ U.Same c "network" ∧ NetOID.items.Text U o i
  | .storage o => ∃ c i, keys = ["0", c, i] ∧ U.Same c "storage" ∧ StorageOID.items.Text U o i

/-- The text is read without a panic, and as what it stands for. -/
def Meets (U : Uppercase) (key : String) : Prop :=
  ∃ r, parse U key = some r ∧ ∀ oid, r = .ok oid ↔ Denotes U (parts key) oid

def IsSubclass (U : Uppercase) (c : String) : Prop :=
  U.Same c "cpu" ∨ U.Same c "memory" ∨ U.Same c "network" ∨ U.Same c "storage"

theorem upper_star : U.upper "*" = "*" := Uppercase.upper_of_ascii (by decide)

theorem not_isSubclass_star : ¬ IsSubclass U "*" := by
  simp only [IsSubclass, Uppercase.same_cpu, Uppercase.same_memory, Uppercase.same_network,
    Uppercase.same_storage, upper_star]
  decide

theorem denotes_three {db c i : String} {oid : OID} : Denotes U [db, c, i] oid ↔ db = "0" ∧
    match oid with
    | .all => c = "*" ∧ i = "*"
    | .cpu o => U.upper c = "CPU" ∧ CpuOID.items.Text U o i
    | .memory o => U.upper c = "MEMORY" ∧ MemoryOID.items.Text U o i
    | .network o => U.upper c = "NETWORK" ∧ NetOID.items.Text U o i
    | .storage o => U.upper c = "STORAGE" ∧ StorageOID.items.Text U o i := by
  cases oid <;> simp [Denotes, Uppercase.same_cpu, Uppercase.same_memory, Uppercase.same_network,
    Uppercase.same_storage]

/-- Where there are three parts or more, the first three are read as they should be alone. -/
theorem parseParts_three (key db c i : String) (rest : List String) :
    ∃ r, parseParts U key (db :: c :: i :: rest) = some r
      ∧ ∀ oid, r = .ok oid ↔ Denotes U [db, c, i] oid := by
  have hlen : ¬ ((db :: c :: i :: rest).length < 2 ∧ 3 < (db :: c :: i :: rest).length) := by omega
  have hlen₂ : (db :: c :: i :: rest).length ≠ 2 := by simp
  have hi : (db :: c :: i :: rest)[2]? = some i := rfl
  simp only [parseParts, if_neg hlen, if_neg hlen₂, List.getElem?_cons_zero,
    List.getElem?_cons_succ, Option.bind_eq_bind, Option.bind_some, denotes_three]
  split_ifs with hdb hc hi' hcpu hmemory hnetwork hstorage
  · exact ⟨_, rfl, fun oid => iff_of_false (by simp) fun h => hdb h.1⟩
  · refine ⟨_, rfl, fun oid => ?_⟩
    cases oid <;> simp_all [upper_star]
  · refine ⟨_, rfl, fun oid => ?_⟩
    cases oid <;> simp_all [upper_star]
  · obtain ⟨r, hr, hoid⟩ := parseItem_eq_ok (U := U) CpuOID.items .cpu c hi
    refine ⟨r, hr, fun oid => (hoid oid).trans ?_⟩
    cases oid <;> simp_all
  · obtain ⟨r, hr, hoid⟩ := parseItem_eq_ok (U := U) MemoryOID.items .memory c hi
    refine ⟨r, hr, fun oid => (hoid oid).trans ?_⟩
    cases oid <;> simp_all
  · obtain ⟨r, hr, hoid⟩ := parseItem_eq_ok (U := U) NetOID.items .network c hi
    refine ⟨r, hr, fun oid => (hoid oid).trans ?_⟩
    cases oid <;> simp_all
  · obtain ⟨r, hr, hoid⟩ := parseItem_eq_ok (U := U) StorageOID.items .storage c hi
    refine ⟨r, hr, fun oid => (hoid oid).trans ?_⟩
    cases oid <;> simp_all
  · refine ⟨_, rfl, fun oid => ?_⟩
    cases oid <;> simp_all

theorem parseParts_two (key c : String) : (IsSubclass U c → parseParts U key ["0", c] = none)
    ∧ (¬ IsSubclass U c → ∃ r, parseParts U key ["0", c] = some r
      ∧ ∀ oid, r = .ok oid ↔ Denotes U ["0", c] oid) := by
  have hnone : ∀ {O : Type} (I : Items O) (wrap : Option O → OID),
      parseItem U I wrap ["0", c] c = none := fun I wrap => rfl
  simp only [parseParts, List.length_cons, List.length_nil, List.getElem?_cons_zero,
    List.getElem?_cons_succ, Option.bind_eq_bind, Option.bind_some, hnone]
  by_cases hc : c = "*"
  · subst hc
    refine ⟨fun h => absurd h not_isSubclass_star, fun _ => ⟨.ok .all, rfl, fun oid => ?_⟩⟩
    cases oid <;> simp [Denotes]
  simp only [hc, IsSubclass, Uppercase.same_cpu, Uppercase.same_memory, Uppercase.same_network,
    Uppercase.same_storage]
  constructor
  · rintro (h | h | h | h) <;> simp [h]
  · intro h
    simp only [not_or] at h
    obtain ⟨hcpu, hmemory, hnetwork, hstorage⟩ := h
    simp only [hcpu, hmemory, hnetwork, hstorage]
    refine ⟨_, rfl, fun oid => iff_of_false (by simp) ?_⟩
    cases oid <;> simp [Denotes, hc]

/-- What the code does as it should: it is not `0` alone, nor `0` and a class without an item, and
nothing follows three parts that stand for an object. -/
def Covered (U : Uppercase) (keys : List String) : Prop :=
  keys ≠ ["0"] ∧ (∀ c, keys = ["0", c] → ¬ IsSubclass U c)
    ∧ ∀ db c i rest, keys = db :: c :: i :: rest → rest ≠ [] → ∀ oid, ¬ Denotes U [db, c, i] oid

theorem not_denotes_long {db c i d : String} {rest : List String} {oid : OID} :
    ¬ Denotes U (db :: c :: i :: d :: rest) oid := by
  cases oid <;> simp [Denotes]

/-- A text is read as what it stands for just when it is covered. -/
theorem parse_meets_iff (U : Uppercase) (key : String) : Meets U key ↔ Covered U (parts key) := by
  unfold Meets parse
  rcases hkeys : parts key with _ | ⟨db, _ | ⟨c, _ | ⟨i, _ | ⟨d, rest⟩⟩⟩⟩
  · exact absurd (List.map_eq_nil_iff.1 hkeys) (List.splitOn_ne_nil _ _)
  · by_cases hdb : db = "0"
    · subst hdb
      refine iff_of_false (fun ⟨r, hr, _⟩ => ?_) fun h => h.1 rfl
      cases hr
    · refine iff_of_true ⟨_, by simp [parseParts, hdb]; rfl, fun oid => ?_⟩ ?_
      · cases oid <;> simp [Denotes]
      · simp [Covered, hdb]
  · by_cases hdb : db = "0"
    · subst hdb
      obtain ⟨hyes, hno⟩ := parseParts_two (U := U) key c
      by_cases hc : IsSubclass U c
      · refine iff_of_false (fun ⟨r, hr, _⟩ => ?_) fun h => h.2.1 c rfl hc
        rw [hyes hc] at hr
        cases hr
      · exact iff_of_true (hno hc) (by simp [Covered, hc])
    · refine iff_of_true ⟨_, by simp [parseParts, hdb]; rfl, fun oid => ?_⟩ ?_
      · cases oid <;> simp [Denotes, hdb]
      · simp [Covered, hdb]
  · exact iff_of_true (parseParts_three key db c i []) (by simp +contextual [Covered])
  · obtain ⟨r, hr, hoid⟩ := parseParts_three (U := U) key db c i (d :: rest)
    constructor
    · rintro ⟨r', hr', hoid'⟩
      obtain rfl : r = r' := Option.some.inj (hr.symm.trans hr')
      refine ⟨by simp, by simp, fun db' c' i' rest' he _ oid hden => ?_⟩
      simp only [List.cons.injEq] at he
      obtain ⟨rfl, rfl, rfl, -⟩ := he
      exact not_denotes_long ((hoid' oid).1 ((hoid oid).2 hden))
    · rintro ⟨-, -, hlong⟩
      refine ⟨r, hr, fun oid => iff_of_false (fun h => ?_) not_denotes_long⟩
      exact hlong db c i (d :: rest) rfl (List.cons_ne_nil _ _) oid ((hoid oid).1 h)

section Witness

/-- The upper case of ASCII. -/
def toyUppercase : Uppercase where
  map c := [c.toUpper]
  ascii _ _ := rfl

/-- `0` alone makes it panic. -/
theorem not_meets_zero : ¬ ∀ key, Meets toyUppercase key := by
  intro h
  obtain ⟨r, hr, -⟩ := h "0"
  have hparts : parts "0" = ["0"] := by decide
  rw [parse, hparts] at hr
  cases hr

end Witness

end OID

end Nyumt
