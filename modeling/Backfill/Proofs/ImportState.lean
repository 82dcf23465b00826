import Backfill.ImportState.Record
import Backfill.Proofs.Document.Order

/-!
# Import states read back

What is written of an import state is read as that state, whatever the order of the fields and whatever other fields
stand beside its own. So no two states are written as the same value, and the tag of the payload and the kind of its
ranges come back with it. Of the texts of dates it is used only that they read back.
-/

namespace Backfill

/-! ## Reading does not look at the order of fields -/

section

variable {α : Type} [RecordedAxis α]

/-- The values of the axis are read as before from sorted documents. -/
def SortedAxis (α : Type) [RecordedAxis α] : Prop :=
  ∀ d : Json, (RecordedAxis.ofDocument? d.sorted : Option α) = RecordedAxis.ofDocument? d

theorem Timestamp.ofDocument?_sorted (d : Json) : Timestamp.ofDocument? d.sorted = Timestamp.ofDocument? d := by
  rw [Timestamp.ofDocument?, Json.text?_sorted, Timestamp.ofDocument?]

theorem sortedAxis_word : SortedAxis UInt64 := Json.word?_sorted

theorem sortedAxis_timestamp : SortedAxis Timestamp := Timestamp.ofDocument?_sorted

theorem Range.ofDocument?_sorted (h : SortedAxis α) (d : Json) :
    (Range.ofDocument? d.sorted : Option (Range α)) = Range.ofDocument? d := by
  rw [Range.ofDocument?, Json.reordered_sorted d, Range.ofDocument?]
  cases d.record? ["from", "to"] with
  | none => rfl
  | some fs =>
      rcases fs with _ | ⟨_ | a, _ | ⟨_ | b, _ | _⟩⟩
      any_goals rfl
      simp only [Option.map_some, List.map_cons, List.map_nil, Option.bind_eq_bind, Option.bind_some, h _]

theorem Coverage.ofDocument?_sorted (h : SortedAxis α) (d : Json) :
    (Coverage.ofDocument? d.sorted : Option (Coverage α)) = Coverage.ofDocument? d := by
  rw [Coverage.ofDocument?, Json.reordered_sorted d, Coverage.ofDocument?]
  cases d.record? fieldNames with
  | none => rfl
  | some fs =>
      rcases fs with _ | ⟨_ | a, _ | ⟨_ | b, _ | ⟨_ | c, _ | _⟩⟩⟩
      any_goals rfl
      simp only [Option.map_some, List.map_cons, List.map_nil, Option.bind_eq_bind, Option.bind_some,
        Json.list?_sorted (Range.ofDocument?_sorted h), Timestamp.ofDocument?_sorted]

end

theorem ProductData.ofDocument?_reordered {d sorted : Json} (h : Json.Reordered d sorted) :
    ProductData.ofDocument? sorted = ProductData.ofDocument? d := by
  rw [ProductData.ofDocument?, h, ProductData.ofDocument?]
  cases d.record? fieldNames with
  | none => rfl
  | some fs =>
      rcases fs with _ | ⟨_ | a, _ | ⟨_ | b, _ | ⟨_ | c, _ | ⟨_ | d, _ | ⟨_ | e, _ | ⟨_ | f, _ | _⟩⟩⟩⟩⟩⟩
      any_goals rfl
      simp only [Option.map_some, List.map_cons, List.map_nil, Option.bind_eq_bind, Option.bind_some, Json.text?_sorted,
        Json.word?_sorted, Timestamp.ofDocument?_sorted, Coverage.ofDocument?_sorted sortedAxis_word]

theorem PriceFeedData.ofDocument?_reordered {d sorted : Json} (h : Json.Reordered d sorted) :
    PriceFeedData.ofDocument? sorted = PriceFeedData.ofDocument? d := by
  rw [PriceFeedData.ofDocument?, h, PriceFeedData.ofDocument?]
  cases d.record? fieldNames with
  | none => rfl
  | some fs =>
      rcases fs with _ | ⟨_ | a, _ | ⟨_ | b, _ | ⟨_ | c, _ | _⟩⟩⟩
      any_goals rfl
      simp only [Option.map_some, List.map_cons, List.map_nil, Option.bind_eq_bind, Option.bind_some, Json.text?_sorted,
        Timestamp.ofDocument?_sorted, Coverage.ofDocument?_sorted sortedAxis_timestamp]

namespace ImportData

theorem untag?_fields (xs : List (String × Json)) :
    untag? (.fields xs) = ((Document.once? tagField xs).getD none).bind fun d =>
      d.text?.map fun tag => (tag, .fields (xs.filter (·.1 != tagField))) := by
  rw [untag?, Document.once?]
  generalize xs.filter (·.1 == tagField) = tagged
  cases tagged with
  | nil => rfl
  | cons f rest =>
      cases rest with
      | nil => rfl
      | cons g rest => rfl

/-- The tag comes off as before, and leaves the other fields in another order. -/
theorem untag?_sorted (d : Json) :
    (untag? d = none ∧ untag? d.sorted = none) ∨
      ∃ tag rest rest', untag? d = some (tag, rest) ∧ untag? d.sorted = some (tag, rest') ∧
        Json.Reordered rest rest' := by
  cases d with
  | scalar s => exact Or.inl ⟨rfl, rfl⟩
  | items xs =>
      cases xs with
      | nil => exact Or.inl ⟨rfl, rfl⟩
      | cons x xs =>
          have hsorted : untag? (Json.sorted (.items (x :: xs))) =
              x.text?.map fun tag => (tag, .items (xs.map Json.sorted)) := by
            rw [Json.sorted, Json.sortedItems_eq, List.map_cons, untag?, Json.text?_sorted]
          rw [hsorted, untag?]
          cases x.text? with
          | none => exact Or.inl ⟨rfl, rfl⟩
          | some tag => exact Or.inr ⟨tag, _, _, rfl, rfl, Json.reordered_items xs⟩
  | fields xs =>
      obtain ⟨ys, hsorted, hperm⟩ := Json.sorted_fields xs
      have hrest : Json.Reordered (.fields (xs.filter (·.1 != tagField))) (.fields (ys.filter (·.1 != tagField))) := by
        apply Json.reordered_of_perm
        have hfilter := hperm.filter (·.1 != tagField)
        rwa [List.filter_map] at hfilter
      rw [hsorted, untag?_fields, untag?_fields, Document.once?_perm hperm, Document.once?_map]
      cases Document.once? tagField xs with
      | none => exact Or.inl ⟨rfl, rfl⟩
      | some found =>
          cases found with
          | none => exact Or.inl ⟨rfl, rfl⟩
          | some x =>
              simp only [Option.map_some, Option.getD_some, Option.bind_some, Json.text?_sorted]
              cases x.text? with
              | none => exact Or.inl ⟨rfl, rfl⟩
              | some tag => exact Or.inr ⟨tag, _, _, rfl, rfl, hrest⟩

theorem ofDocument?_sorted (d : Json) : ofDocument? d.sorted = ofDocument? d := by
  unfold ofDocument?
  rw [Json.hasBroken_sorted, Json.depth_sorted]
  rcases untag?_sorted d with ⟨hnone, hnone'⟩ | ⟨tag, rest, rest', htag, htag', hrest⟩
  · rw [hnone, hnone']
  · rw [htag, htag']
    simp only [Option.bind_eq_bind, Option.bind_some, PriceFeedData.ofDocument?_reordered hrest,
      ProductData.ofDocument?_reordered hrest]

end ImportData

theorem ImportState.ofDocument?_sorted (d : Json) : ImportState.ofDocument? d.sorted = ImportState.ofDocument? d := by
  rw [ImportState.ofDocument?, Json.reordered_sorted d, ImportState.ofDocument?]
  cases d.record? fieldNames with
  | none => rfl
  | some fs =>
      rcases fs with _ | ⟨_ | a, _ | ⟨_ | b, _ | _⟩⟩
      any_goals rfl
      simp only [Option.map_some, List.map_cons, List.map_nil, Option.bind_eq_bind, Option.bind_some, Json.text?_sorted,
        ImportData.ofDocument?_sorted]

/-! ## What is written is read -/

section

variable {α : Type} [RecordedAxis α]

/-- The value is written as something that is read as it. -/
def ReadsBack (x : α) : Prop := RecordedAxis.ofDocument? (RecordedAxis.toJson x) = some x

theorem Range.ofDocument?_toJson {r : Range α} (hfirst : ReadsBack r.first) (hlast : ReadsBack r.last) :
    Range.ofDocument? r.toJson = some r := by
  have hrecord : r.toJson.record? ["from", "to"] =
      some [some (RecordedAxis.toJson r.first), some (RecordedAxis.toJson r.last)] := by
    simp [Range.toJson, Document.record?_fields, Document.once?]
  rw [ReadsBack] at hfirst hlast
  simp only [Range.ofDocument?, hrecord, Option.bind_eq_bind, Option.bind_some, hfirst, hlast]
  rfl

theorem Coverage.ofDocument?_toJson {c : Coverage α}
    (hranges : ∀ r ∈ c.covered ++ c.toRetry, ReadsBack r.first ∧ ReadsBack r.last)
    (hlast : ReadsBack c.lastImport) : Coverage.ofDocument? c.toJson = some c := by
  have hrecord : c.toJson.record? fieldNames = some [some (Json.ofList Range.toJson c.covered),
      some (Json.ofList Range.toJson c.toRetry), some c.lastImport.toJson] := by
    simp [Coverage.toJson, fieldNames, Document.record?_fields, Document.once?]
  have hread : ∀ r ∈ c.covered ++ c.toRetry, Range.ofDocument? r.toJson = some r :=
    fun r hr => Range.ofDocument?_toJson (hranges r hr).1 (hranges r hr).2
  have hdate : Timestamp.ofDocument? c.lastImport.toJson = some c.lastImport := hlast
  simp only [Coverage.ofDocument?, hrecord, Option.bind_eq_bind, Option.bind_some, hdate,
    Json.list?_ofList fun r hr => hread r (List.mem_append_left _ hr),
    Json.list?_ofList fun r hr => hread r (List.mem_append_right _ hr)]
  rfl

/-- Coverage is written as three levels of unbroken values. -/
theorem Coverage.within_toJson (hvalue : ∀ x : α, (RecordedAxis.toJson x).Within 0) (c : Coverage α) :
    c.toJson.Within 3 := by
  have hrange : ∀ r : Range α, r.toJson.Within 1 := by
    intro r
    refine Json.within_fields ?_
    simp only [List.mem_cons, List.not_mem_nil, or_false, forall_eq_or_imp, forall_eq]
    exact ⟨hvalue r.first, hvalue r.last⟩
  refine Json.within_fields ?_
  simp only [List.mem_cons, List.not_mem_nil, or_false, forall_eq_or_imp, forall_eq]
  exact ⟨Json.within_ofList hrange _, Json.within_ofList hrange _, (Json.within_ofText _).mono (Nat.zero_le 2)⟩

end

theorem readsBack_word (n : UInt64) : ReadsBack n := rfl

theorem Timestamp.ofDocument?_toJson (t : Timestamp) : Timestamp.ofDocument? t.toJson = Timestamp.read? t.text := by
  have htext : t.toJson.text? = some t.text := rfl
  rw [Timestamp.ofDocument?, htext, Option.bind_some]

theorem readsBack_timestamp {t : Timestamp} (h : Timestamp.read? t.text = some t) : ReadsBack t :=
  (Timestamp.ofDocument?_toJson t).trans h

/-! ## Payloads -/

/-- The fields of product data as they are written. -/
def ProductData.fields (data : ProductData) : List (String × Json) :=
  [("productId", Json.ofText data.productId), ("chain", Json.ofText data.chain),
    ("contractAddress", Json.ofText data.address), ("contractCreatedAtBlock", Json.ofWord data.createdAtBlock),
    ("contractCreatedDate", data.createdAt.toJson), ("ranges", data.ranges.toJson)]

/-- The fields of the data of a price feed as they are written. -/
def PriceFeedData.fields (data : PriceFeedData) : List (String × Json) :=
  [("priceFeedId", Json.ofText data.priceFeedId), ("firstDate", data.firstDate.toJson),
    ("ranges", data.ranges.toJson)]

theorem ProductData.ofDocument?_fields {data : ProductData} (hcreated : ReadsBack data.createdAt)
    (hlast : ReadsBack data.ranges.lastImport) : ProductData.ofDocument? (.fields data.fields) = some data := by
  have hrecord : (Document.fields data.fields).record? fieldNames = some [some (Json.ofText data.productId),
      some (Json.ofText data.chain), some (Json.ofText data.address), some (Json.ofWord data.createdAtBlock),
      some data.createdAt.toJson, some data.ranges.toJson] := by
    simp [fields, fieldNames, Document.record?_fields, Document.once?]
  have hdate : Timestamp.ofDocument? data.createdAt.toJson = some data.createdAt := hcreated
  have hranges : Coverage.ofDocument? data.ranges.toJson = some data.ranges :=
    Coverage.ofDocument?_toJson (fun r _ => ⟨readsBack_word _, readsBack_word _⟩) hlast
  simp only [ProductData.ofDocument?, hrecord, Option.bind_eq_bind, Option.bind_some, hdate, hranges]
  rfl

theorem PriceFeedData.ofDocument?_fields {data : PriceFeedData} (hfirst : ReadsBack data.firstDate)
    (hlast : ReadsBack data.ranges.lastImport)
    (hranges : ∀ r ∈ data.ranges.covered ++ data.ranges.toRetry, ReadsBack r.first ∧ ReadsBack r.last) :
    PriceFeedData.ofDocument? (.fields data.fields) = some data := by
  have hrecord : (Document.fields data.fields).record? fieldNames =
      some [some (Json.ofText data.priceFeedId), some data.firstDate.toJson, some data.ranges.toJson] := by
    simp [fields, fieldNames, Document.record?_fields, Document.once?]
  have hdate : Timestamp.ofDocument? data.firstDate.toJson = some data.firstDate := hfirst
  have hcoverage : Coverage.ofDocument? data.ranges.toJson = some data.ranges :=
    Coverage.ofDocument?_toJson hranges hlast
  simp only [PriceFeedData.ofDocument?, hrecord, Option.bind_eq_bind, Option.bind_some, hdate, hcoverage]
  rfl

namespace ImportData

theorem within_toJson (data : ImportData) : data.toJson.Within 4 := by
  have htext : ∀ s : String, (Json.ofText s).Within 3 := fun s => (Json.within_ofText s).mono (Nat.zero_le 3)
  have hword : ∀ n : UInt64, (Json.ofWord n).Within 0 := Json.within_ofWord
  have hdate : ∀ t : Timestamp, t.toJson.Within 0 := fun t => Json.within_ofText t.text
  cases data with
  | product feed data =>
      refine Json.within_fields ?_
      simp only [List.mem_cons, List.not_mem_nil, or_false, forall_eq_or_imp, forall_eq]
      exact ⟨htext _, htext _, htext _, htext _, (hword _).mono (Nat.zero_le 3), (hdate _).mono (Nat.zero_le 3),
        Coverage.within_toJson hword data.ranges⟩
  | priceFeed data =>
      refine Json.within_fields ?_
      simp only [List.mem_cons, List.not_mem_nil, or_false, forall_eq_or_imp, forall_eq]
      exact ⟨htext _, htext _, (hdate _).mono (Nat.zero_le 3), Coverage.within_toJson hdate data.ranges⟩

/-- The tag comes off a payload whose other fields have other names. -/
theorem untag?_tagged {fields : List (String × Json)} (h : fields.all (·.1 != tagField) = true) (tag : String) :
    untag? (.fields ((tagField, Json.ofText tag) :: fields)) = some (tag, .fields fields) := by
  rw [List.all_eq_true] at h
  have hothers : fields.filter (·.1 == tagField) = [] := by
    rw [List.filter_eq_nil_iff]
    exact fun f hf => by simpa using h f hf
  have hrest : fields.filter (·.1 != tagField) = fields := List.filter_eq_self.2 h
  rw [untag?, List.filter_cons_of_pos (by simp), hothers, List.filter_cons_of_neg (by simp), hrest]
  rfl

theorem find?_tag (feed : ProductFeed) : ProductFeed.all.find? (·.tag == feed.tag) = some feed := by
  cases feed <;> decide +kernel

theorem tag_ne_priceFeedTag (feed : ProductFeed) : feed.tag ≠ priceFeedTag := by
  cases feed <;> decide +kernel

/-- The dates of a payload. -/
def dates : ImportData → List Timestamp
  | product _ data => [data.createdAt, data.ranges.lastImport]
  | priceFeed data => data.firstDate :: data.ranges.lastImport ::
      (data.ranges.covered ++ data.ranges.toRetry).flatMap fun r => [r.first, r.last]

theorem ofDocument?_toJson {data : ImportData} (hdates : ∀ t ∈ data.dates, Timestamp.read? t.text = some t) :
    ofDocument? data.toJson = some data := by
  have hvalue : ¬ (data.toJson.hasBroken = true ∨ Json.maxDepth ≤ data.toJson.depth) := by
    have hwithin := within_toJson data
    rintro (hbroken | hdeep)
    · rw [hwithin.unbroken] at hbroken
      cases hbroken
    · exact absurd (Nat.le_trans hdeep hwithin.depth_le) (by decide)
  have hback : ∀ t ∈ data.dates, ReadsBack t := fun t ht => readsBack_timestamp (hdates t ht)
  rw [ofDocument?, if_neg hvalue]
  cases data with
  | product feed data =>
      have hdata := ProductData.ofDocument?_fields (hback data.createdAt (by simp [dates]))
        (hback data.ranges.lastImport (by simp [dates]))
      have htag : untag? (product feed data).toJson = some (feed.tag, .fields data.fields) :=
        untag?_tagged (by simp [tagField]) feed.tag
      simp only [htag, Option.bind_eq_bind, Option.bind_some, if_neg (tag_ne_priceFeedTag feed), find?_tag, hdata]
      rfl
  | priceFeed data =>
      have hranges : ∀ r ∈ data.ranges.covered ++ data.ranges.toRetry, ReadsBack r.first ∧ ReadsBack r.last := by
        intro r hr
        have hends : ∀ t ∈ [r.first, r.last], t ∈ (priceFeed data).dates := fun t ht =>
          List.mem_cons_of_mem _ (List.mem_cons_of_mem _ (List.mem_flatMap.2 ⟨r, hr, ht⟩))
        exact ⟨hback _ (hends _ (by simp)), hback _ (hends _ (by simp))⟩
      have hdata := PriceFeedData.ofDocument?_fields (hback data.firstDate (by simp [dates]))
        (hback data.ranges.lastImport (by simp [dates])) hranges
      have htag : untag? (priceFeed data).toJson = some (priceFeedTag, .fields data.fields) :=
        untag?_tagged (by simp [tagField]) priceFeedTag
      simp only [htag, Option.bind_eq_bind, Option.bind_some, if_true, hdata]
      rfl

end ImportData

/-! ## States -/

namespace ImportState

/-- The state is read from what is written of it, whatever other fields there are. -/
theorem ofDocument?_withFields {s : ImportState} (hdates : ∀ t ∈ s.data.dates, Timestamp.read? t.text = some t)
    {unknown : List (String × Json)} (hunknown : ∀ f ∈ unknown, f.1 ∉ fieldNames) :
    ofDocument? (s.toJson.withFields unknown) = some s := by
  have hrecord : s.toJson.record? fieldNames = some [some (Json.ofText s.importKey), some s.data.toJson] := by
    simp [toJson, fieldNames, Document.record?_fields, Document.once?]
  rw [ofDocument?, Json.record?_withFields hunknown, hrecord]
  simp only [Option.bind_eq_bind, Option.bind_some, ImportData.ofDocument?_toJson hdates]
  rfl

/-- A state is read from every document that is the same value as what is written of it, with unknown fields beside
its own, and two states that are written as the same value are equal. Its dates have to read back. -/
theorem import_states_read_back (s : ImportState) (hdates : ∀ t ∈ s.data.dates, Timestamp.read? t.text = some t) :
    (∀ (unknown : List (String × Json)) (d : Json), (∀ f ∈ unknown, f.1 ∉ fieldNames) →
      d.sorted = (s.toJson.withFields unknown).sorted → ofDocument? d = some s) ∧
    ∀ other : ImportState, (∀ t ∈ other.data.dates, Timestamp.read? t.text = some t) →
      other.toJson.sorted = s.toJson.sorted → other = s := by
  have hread : ∀ (unknown : List (String × Json)) (d : Json), (∀ f ∈ unknown, f.1 ∉ fieldNames) →
      d.sorted = (s.toJson.withFields unknown).sorted → ofDocument? d = some s := by
    intro unknown d hunknown hsame
    rw [← ofDocument?_sorted, hsame, ofDocument?_sorted, ofDocument?_withFields hdates hunknown]
  refine ⟨hread, fun other hother hsame => ?_⟩
  have hwritten : ∀ t : ImportState, t.toJson.withFields [] = t.toJson := fun t => by
    rw [toJson, Json.withFields, List.append_nil]
  have hnone : ∀ f ∈ ([] : List (String × Json)), f.1 ∉ fieldNames := List.forall_mem_nil _
  have hs := hread [] other.toJson hnone (by rw [hwritten, hsame])
  have ho := ofDocument?_withFields hother hnone
  rw [hwritten, hs] at ho
  exact (Option.some.inj ho).symm

/-- Half a second into 2024. -/
def newYear : Timestamp := Timestamp.epoch.after 1704067200500000000

/-- A price feed with an inverted range, one that overlaps it, and the whole calendar to retry. -/
def euroFeed : ImportState where
  importKey := "oracle:price:eur"
  data := .priceFeed ⟨"eur", .epoch, ⟨[⟨newYear, .epoch⟩, ⟨.epoch, newYear⟩], [⟨.earliest, .latest⟩], newYear⟩⟩

/-- The feed comes back from a document that begins with a field of its own and ends with the key. -/
theorem import_states_read_back_priceFeed :
    ofDocument? (.fields [("_id", Json.ofText "oracle:price:eur"), ("importData", euroFeed.data.toJson),
      ("importKey", Json.ofText "oracle:price:eur")]) = some euroFeed := by
  have hdates : ∀ t ∈ euroFeed.data.dates, Timestamp.read? t.text = some t := by decide +kernel
  refine (import_states_read_back euroFeed hdates).1 [("_id", Json.ofText "oracle:price:eur")] _ ?_ ?_
  · intro f hf
    rw [List.mem_singleton.1 hf]
    decide +kernel
  · exact Json.sorted_eq_of_perm (List.reverse_perm [("importKey", Json.ofText "oracle:price:eur"),
      ("importData", euroFeed.data.toJson), ("_id", Json.ofText "oracle:price:eur")]) (by simp)

end ImportState

end Backfill
