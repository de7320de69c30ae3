import BinaryQuadratic.Proofs.Json.RoundTrip
import BinaryQuadratic.Proofs.Params
import BinaryQuadratic.Proofs.Value.Parts

namespace BinaryQuadratic.Value

theorem toJsonItems_eq_map (items : List Value) : toJsonItems items = items.map toJson := by
  induction items with
  | nil => rfl
  | cons x items ih => rw [toJsonItems, ih, List.map_cons]

theorem toJsonEntries_eq_map (entries : List (String × Value)) :
    toJsonEntries entries = entries.map (fun e => (e.1, toJson e.2)) := by
  induction entries with
  | nil => rfl
  | cons e entries ih => rw [toJsonEntries, ih, List.map_cons]

theorem decodeItems?_eq_mapM (items : List Json) : decodeItems? items = items.mapM decode? := by
  induction items with
  | nil => rfl
  | cons x items ih => rw [decodeItems?, ih, List.mapM_cons]

theorem decodeMembers?_eq_mapM (members : List (String × Json)) :
    decodeMembers? members = members.mapM (fun m => (decode? m.2).map (m.1, ·)) := by
  induction members with
  | nil => rfl
  | cons m members ih =>
    rw [decodeMembers?, ih, List.mapM_cons]
    cases decode? m.2 <;> rfl

theorem ofInt?_toInt (n : Int64) : ofInt? n.toInt = some (int n) := by
  have hsigned : -Word.signedBound ≤ n.toInt ∧ n.toInt < Word.signedBound :=
    ⟨n.le_toInt, n.toInt_lt⟩
  rw [ofInt?, if_pos hsigned, Int64.ofInt_toInt]

/-- An unsigned word is read as what it is converted to. -/
theorem ofInt?_toNat (n : UInt64) : ofInt? n.toNat = some (ofUInt64 n) := by
  have hhigh : n.toNat < Word.bound := n.toNat_lt
  unfold ofInt? ofUInt64
  by_cases hn : n.toNat < Word.signedBound
  · have hsigned : -(Word.signedBound : Int) ≤ n.toNat ∧ (n.toNat : Int) < Word.signedBound := by
      omega
    rw [if_pos hsigned, if_pos hn, Int64.ofInt_eq_ofNat]
  · have hsigned :
        ¬ (-(Word.signedBound : Int) ≤ n.toNat ∧ (n.toNat : Int) < Word.signedBound) := by
      omega
    have hunsigned : (0 : Int) ≤ n.toNat ∧ (n.toNat : Int) < Word.bound := by
      omega
    rw [if_neg hsigned, if_pos hunsigned, if_neg hn, Int.toNat_natCast, UInt64.ofNat_toNat]

theorem ofUInt64_of_le {n : UInt64} (h : Word.signedBound ≤ n.toNat) : ofUInt64 n = uint n :=
  if_neg (Nat.not_lt.mpr h)

theorem ofInt?_eq_some {i : Int} {v : Value} (h : ofInt? i = some v) :
    (∃ n, v = int n) ∨ ∃ n, v = uint n ∧ Word.signedBound ≤ n.toNat := by
  unfold ofInt? at h
  split at h
  · cases h
    exact .inl ⟨_, rfl⟩
  · rename_i hsigned
    split at h
    · rename_i hunsigned
      cases h
      have hword : i.toNat < UInt64.size := (Int.toNat_lt hunsigned.1).mpr hunsigned.2
      refine .inr ⟨_, rfl, ?_⟩
      rw [UInt64.toNat_ofNat_of_lt' hword]
      omega
    · cases h

theorem decode?_eq_uint {j : Json} {n : UInt64} (h : decode? j = some (uint n)) :
    Word.signedBound ≤ n.toNat := by
  cases j with
  | int i =>
    rcases ofInt?_eq_some h with ⟨_, he⟩ | ⟨_, he, hn⟩
    · cases he
    · cases he
      exact hn
  | _ => simp [decode?] at h

theorem decode?_eq_list {j : Json} {items : List Value} (h : decode? j = some (list items)) :
    ∃ js : List Json, js.mapM decode? = some items := by
  cases j with
  | arr js =>
    obtain ⟨items', hitems, he⟩ := Option.map_eq_some_iff.mp h
    cases he
    exact ⟨js, (decodeItems?_eq_mapM js).symm.trans hitems⟩
  | int i => rcases ofInt?_eq_some h with ⟨_, he⟩ | ⟨_, he, _⟩ <;> cases he
  | _ => simp [decode?] at h

theorem decode?_eq_map {j : Json} {entries : List (String × Value)}
    (h : decode? j = some (map entries)) :
    ∃ (members : List (String × Json)) (pairs : List (String × Value)),
      members.mapM (fun m => (decode? m.2).map (m.1, ·)) = some pairs ∧
        entries = sortEntries pairs := by
  cases j with
  | obj members =>
    obtain ⟨pairs, hpairs, he⟩ := Option.map_eq_some_iff.mp h
    cases he
    exact ⟨members, pairs, (decodeMembers?_eq_mapM members).symm.trans hpairs, rfl⟩
  | int i => rcases ofInt?_eq_some h with ⟨_, he⟩ | ⟨_, he, _⟩ <;> cases he
  | _ => simp [decode?] at h

/-- Nothing that is decoded holds an unsigned integer that is small enough for a signed one, or a
map out of order. -/
theorem canonical_of_decode? {j : Json} {v : Value} (h : decode? j = some v) :
    v.Canonical ∧ v.Ordered := by
  -- The induction is on the value, whose kind says what kind of tree it was read from.
  induction v generalizing j with
  | bool b => simp [Canonical, Ordered, parts]
  | int n => simp [Canonical, Ordered, parts]
  | uint n => simpa [Canonical, Ordered, parts] using decode?_eq_uint h
  | float x => simp [Canonical, Ordered, parts]
  | str s => simp [Canonical, Ordered, parts]
  | list items ih =>
    obtain ⟨js, hitems⟩ := decode?_eq_list h
    have hinside : ∀ x ∈ items, x.Canonical ∧ x.Ordered := by
      intro x hx
      obtain ⟨_, _, hj⟩ := mem_of_mapM hitems hx
      exact ih x hx hj
    constructor
    · intro n hn
      obtain he | ⟨x, hx, hn⟩ := mem_parts_list.mp hn
      · cases he
      · exact (hinside x hx).1 n hn
    · intro es hes
      obtain he | ⟨x, hx, hes⟩ := mem_parts_list.mp hes
      · cases he
      · exact (hinside x hx).2 es hes
  | map entries ih =>
    obtain ⟨members, pairs, hpairs, rfl⟩ := decode?_eq_map h
    have hinside : ∀ e ∈ sortEntries pairs, e.2.Canonical ∧ e.2.Ordered := by
      intro e he
      obtain ⟨m, _, hm⟩ := mem_of_mapM hpairs (mem_sortEntries he)
      obtain ⟨_, hj, rfl⟩ := Option.map_eq_some_iff.mp hm
      exact ih _ he hj
    constructor
    · intro n hn
      obtain he | ⟨e, he, hn⟩ := mem_parts_map.mp hn
      · cases he
      · exact (hinside e he).1 n hn
    · intro es hes
      obtain he | ⟨e, he, hes⟩ := mem_parts_map.mp hes
      · cases he
        exact ascending_sortEntries pairs
      · exact (hinside e he).2 es hes

/-- What is written for a value is decoded as that value. -/
theorem Writable.decode?_toJson {v : Value} (h : v.Writable) : decode? v.toJson = some v := by
  induction v with
  | bool b => rfl
  | int n => rw [toJson, decode?, ofInt?_toInt]
  | uint n => rw [toJson, decode?, ofInt?_toNat, ofUInt64_of_le (h.canonical n (mem_parts_self _))]
  | float x => rw [toJson, Json.ofFloat, if_pos (h.finite x (mem_parts_self _)), decode?]
  | str s => rfl
  | list items ih =>
    have hitems : (items.map toJson).mapM decode? = some items :=
      mapM_read (fun x hx => ih x hx (h.item hx))
    rw [toJson, decode?, toJsonItems_eq_map, decodeItems?_eq_mapM, hitems, Option.map_some]
  | map entries ih =>
    have heach : ∀ e ∈ entries, (decode? e.2.toJson).map (e.1, ·) = some e := by
      intro e he
      rw [ih e he (h.entry he)]
      rfl
    rw [toJson, decode?, toJsonEntries_eq_map, decodeMembers?_eq_mapM, mapM_read heach,
      Option.map_some, sortEntries_of_ascending (h.ordered _ (mem_parts_self _))]

/-- Every part of what is written has a text of its own. -/
theorem Writable.readable {v : Value} (h : v.Writable) : v.toJson.Readable := by
  induction v with
  | bool b => exact .bool b
  | int n => exact .int n.le_toInt (toInt_lt_word n)
  | uint n => exact Json.readable_ofNat n.toNat_lt
  | float x => exact Json.readable_ofFloat (h.finite x (mem_parts_self _))
  | str s => exact .str s
  | list items ih =>
    rw [toJson, toJsonItems_eq_map]
    refine .arr (fun j hj => ?_)
    obtain ⟨x, hx, rfl⟩ := List.mem_map.mp hj
    exact ih x hx (h.item hx)
  | map entries ih =>
    rw [toJson, toJsonEntries_eq_map]
    refine .obj (fun m hm => ?_)
    obtain ⟨e, he, rfl⟩ := List.mem_map.mp hm
    exact ih e he (h.entry he)

theorem Writable.parse (codec : Json.Codec) {v : Value} (h : v.Writable)
    (hdepth : v.toJson.nesting ≤ Json.nestingLimit) :
    (codec.parse? (codec.write v.toJson)).bind ofJson? = some v := by
  rw [codec.parse?_write h.readable hdepth, Option.bind_some, ofJson?, ofJsonIn?, Nat.zero_add,
    if_pos hdepth, h.decode?_toJson]

theorem asUInt64?_ofUInt64 (n : UInt64) : (ofUInt64 n).asUInt64? = some n := by
  unfold ofUInt64
  by_cases hn : n.toNat < Word.signedBound
  · have hint : (Int64.ofNat n.toNat).toInt = n.toNat := Int64.toInt_ofNat_of_lt hn
    rw [if_pos hn, asUInt64?, hint, if_pos (Int.natCast_nonneg _), Int.toNat_natCast,
      UInt64.ofNat_toNat]
  · rw [if_neg hn, asUInt64?]

theorem OfScalar.canonical {v : Value} (h : v.OfScalar) : v.Canonical := by
  cases h with
  | uint64 n =>
    unfold ofUInt64
    by_cases hn : n.toNat < Word.signedBound
    · simp [hn, Canonical, parts]
    · simpa [hn, Canonical, parts] using Nat.not_lt.mp hn
  | _ => simp [Canonical, parts]

theorem writable_ofUInt64 (n : UInt64) : (ofUInt64 n).Writable := by
  refine ⟨(OfScalar.uint64 n).canonical, ?_, ?_⟩
  · unfold ofUInt64
    split <;> simp [Ordered, parts]
  · unfold ofUInt64
    split <;> simp [Finite, parts]

theorem toJson_ofUInt64 (n : UInt64) : (ofUInt64 n).toJson = .int n.toNat := by
  unfold ofUInt64
  by_cases hn : n.toNat < Word.signedBound
  · have hint : (Int64.ofNat n.toNat).toInt = n.toNat := Int64.toInt_ofNat_of_lt hn
    rw [if_pos hn, toJson, hint]
  · rw [if_neg hn, toJson]

theorem parse_ofUInt64 (codec : Json.Codec) (n : UInt64) :
    (codec.parse? (codec.write (ofUInt64 n).toJson)).bind ofJson? = some (ofUInt64 n) := by
  refine (writable_ofUInt64 n).parse codec ?_
  rw [toJson_ofUInt64]
  exact Nat.zero_le _

/-- An integer is written as its digits, as which of the two kinds it may be stored. -/
theorem write_ofUInt64 (codec : Json.Codec) (n : UInt64) :
    codec.write (ofUInt64 n).toJson = toString n.toNat := by
  have hword : n.toNat < Word.bound := n.toNat_lt
  rw [toJson_ofUInt64, codec.write_int (by omega) (Int.ofNat_lt.mpr hword)]
  rfl

/-- Values that are made from scalars or out of JSON are canonical, and whatever canonical value
JSON can hold is read back from its text, each part as the kind that it was. An unsigned word is the
same value whether it is converted, decoded or read back, and parameters give it out again. -/
theorem json_round_trip_of_canonical_values (codec : Json.Codec) :
    (∀ v : Value, v.OfScalar → v.Canonical) ∧
      (∀ (outer : Nat) (j : Json) (v : Value), ofJsonIn? outer j = some v →
        v.Canonical ∧ v.Ordered) ∧
      (∀ v : Value, v.Canonical → v.Ordered → v.Finite →
        v.toJson.nesting ≤ Json.nestingLimit →
        (codec.parse? (codec.write v.toJson)).bind ofJson? = some v ∧ v.beq v = true) ∧
      ∀ k : UInt64, (codec.parse? (toString k.toNat)).bind ofJson? = some (ofUInt64 k) ∧
        (codec.parse? (codec.write (ofUInt64 k).toJson)).bind ofJson? = some (ofUInt64 k) ∧
        ∀ (p : Params) (name : String),
          ((p.insert name (ofUInt64 k)).takeUInt64 name).1 = .ok (some k) := by
  refine ⟨fun v hv => hv.canonical, fun outer j v hj => ?_,
    fun v hc ho hf hdepth => ?_, fun k => ⟨?_, parse_ofUInt64 codec k, fun p name => ?_⟩⟩
  · unfold ofJsonIn? at hj
    split at hj
    · exact canonical_of_decode? hj
    · cases hj
  · exact ⟨Writable.parse codec ⟨hc, ho, hf⟩ hdepth, hf.withoutNaN.beq_self⟩
  · rw [← write_ofUInt64 codec]
    exact parse_ofUInt64 codec k
  · have hvalue : (p.insert name (ofUInt64 k)).get? name = some (ofUInt64 k) := by
      rw [Params.get?_insert, if_pos rfl]
    rw [Params.takeUInt64_of_get? hvalue (asUInt64?_ofUInt64 k)]

theorem json_round_trip_of_nested_list :
    let v : Value := map [("a", list [uint 9223372036854775808, int (-1), float 0.5]),
      ("b", map [("c", list []), ("d", str "\n")])]
    v.Canonical ∧ v.Ordered ∧ v.Finite ∧ v.toJson.nesting ≤ Json.nestingLimit ∧
      (Json.parse? (Json.write v.toJson)).bind ofJson? = some v := by
  intro v
  have hcanonical : v.Canonical := by
    simp [v, Canonical, parts, partsOfItems, partsOfEntries]
  have hordered : v.Ordered := by
    have hnames : "a" < "b" ∧ "c" < "d" := by decide
    simpa [v, Ordered, parts, partsOfItems, partsOfEntries, Ascending] using hnames
  have hfinite : v.Finite := by
    have hhalf : (0.5 : Float).isFinite = true := by decide +kernel
    simpa [v, Finite, parts, partsOfItems, partsOfEntries] using hhalf
  have hdepth : v.toJson.nesting ≤ Json.nestingLimit := by decide
  obtain ⟨_, _, hread, _⟩ := json_round_trip_of_canonical_values Json.Codec.standard
  exact ⟨hcanonical, hordered, hfinite, hdepth,
    (hread v hcanonical hordered hfinite hdepth).1⟩

end BinaryQuadratic.Value
