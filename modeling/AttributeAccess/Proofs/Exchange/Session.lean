import AttributeAccess.Proofs.Exchange
import AttributeAccess.Proofs.Registry.Migration

/-!
# Sessions

A host sends requests one after another and keeps nothing but the text that the last one gave. Each
request reads the whole registry from that text and writes it again (`Request.onText`). The same
requests can be made to a registry in memory, which is never read or written (`Request.onRegistry`).
The two agree on every request, in what they refuse and why as well as in the text they end with
(`session_agrees`): a registry that was read is storable, requests keep it so, and then the text that
is written is read as the registry in memory (`Request.agree`).
-/

namespace AttributeAccess.Exchange

inductive Request where
  | addAxis (axis : Payload)
  | rotate (attributes : Json)

namespace Request

/-- The request to a host that keeps the text of its registry. -/
def onText (kept : Payload) : Request → Except Failure Text
  | addAxis axis => Exchange.addAxis kept axis
  | rotate attributes => Exchange.rotate attributes kept

/-- The same request to a registry in memory. -/
def onRegistry (r : Registry) : Request → Except Failure Registry
  | addAxis axis => do
    let a ← orFault (Axis.decode axis)
    orFault (r.addAxis a)
  | rotate attributes => do
    let items ← orMisuse attributes.elements
    items.foldlM rotateNext r

/-- What the host keeps after the request; one that is refused changes nothing. -/
def rewrite (kept : Payload) (q : Request) : Payload :=
  match q.onText kept with
  | .ok t => .text t
  | .error _ => kept

def update (r : Registry) (q : Request) : Registry :=
  match q.onRegistry r with
  | .ok s => s
  | .error _ => r

/-- An axis that the request adds to the registry brings representable attributes. -/
def AddsRepresentable (r : Registry) : Request → Prop
  | addAxis axis => ∀ a s, Axis.decode axis = .ok a → r.addAxis a = .ok s →
      ∀ name ∈ a.names, Attribute.Representable ⟨a.name, name⟩
  | rotate _ => True

end Request

/-- What the host keeps after some requests. -/
def textAfter (kept : Payload) (requests : List Request) : Payload :=
  requests.foldl Request.rewrite kept

/-- The registry in memory after the same requests. -/
def registryAfter (r : Registry) (requests : List Request) : Registry :=
  requests.foldl Request.update r

theorem registryAfter_nil (r : Registry) : registryAfter r [] = r := rfl

theorem registryAfter_cons (r : Registry) (q : Request) (requests : List Request) :
    registryAfter r (q :: requests) = registryAfter (q.update r) requests := rfl

variable {kept : Payload} {r s : Registry}

/-! ## Requests keep a registry storable -/

theorem exists_rotate_of_rotateNext {v : Json} (h : rotateNext r v = .ok s) :
    ∃ a, r.rotate a = .ok s := by
  obtain ⟨t, -, hrotate⟩ := bind_eq_ok.1 h
  cases ha : Attribute.ofText t with
  | error f => simp [ha, orFault, Except.mapError, bind, Except.bind] at hrotate
  | ok a => exact ⟨a, orFault_eq_ok.1 (by simpa [ha, bind, Except.bind] using hrotate)⟩

/-- However many rotations are asked for, the registry stays storable. -/
theorem storable_rotations {items : List Json} (hr : r.Storable)
    (h : items.foldlM rotateNext r = .ok s) : s.Storable := by
  induction items generalizing r with
  | nil =>
    cases h
    exact hr
  | cons v items ih =>
    rw [List.foldlM_cons] at h
    obtain ⟨next, hnext, hrest⟩ := bind_eq_ok.1 h
    obtain ⟨a, ha⟩ := exists_rotate_of_rotateNext hnext
    exact ih (hr.rotate ha) hrest

namespace Request

theorem storable {q : Request} (hr : r.Storable) (hq : q.AddsRepresentable r)
    (h : q.onRegistry r = .ok s) : s.Storable := by
  cases q with
  | addAxis axis =>
    obtain ⟨a, ha, hs⟩ := bind_eq_ok.1 h
    rw [orFault_eq_ok] at ha hs
    exact hr.addAxis hs (hq a s ha hs) (Axis.named_of_decode ha)
  | rotate attributes =>
    obtain ⟨items, -, hs⟩ := bind_eq_ok.1 h
    exact storable_rotations hr hs

/-! ## One request -/

theorem rewrite_of_ok {q : Request} {t : Text} (h : q.onText kept = .ok t) :
    q.rewrite kept = .text t := by
  rw [rewrite, h]

theorem rewrite_of_error {q : Request} {f : Failure} (h : q.onText kept = .error f) :
    q.rewrite kept = kept := by
  rw [rewrite, h]

theorem update_of_ok {q : Request} (h : q.onRegistry r = .ok s) : q.update r = s := by
  rw [update, h]

theorem update_of_error {q : Request} {f : Failure} (h : q.onRegistry r = .error f) :
    q.update r = r := by
  rw [update, h]

/-- On a text that is read, a request works on the registry and writes it. -/
theorem onText_eq (h : Registry.decode kept = .ok r) (q : Request) :
    q.onText kept = q.onRegistry r >>= written := by
  have hread : orFault (Registry.decode kept) = .ok r := orFault_eq_ok.2 h
  cases q with
  | addAxis axis =>
    simp only [onText, onRegistry, Exchange.addAxis, hread, bind_assoc]
    rfl
  | rotate attributes =>
    simp only [onText, onRegistry, Exchange.rotate, hread, bind_assoc]
    rfl

/-- Both sides refuse the request alike, or both grant it, and the text that is written is read as
the registry in memory. -/
theorem agree (h : Registry.decode kept = .ok r) {q : Request} (hq : q.AddsRepresentable r) :
    (∃ f, q.onText kept = .error f ∧ q.onRegistry r = .error f) ∨
      ∃ s t, q.onRegistry r = .ok s ∧ s.encode = .ok t ∧ q.onText kept = .ok t ∧
        Registry.decode (.text t) = .ok s := by
  rw [onText_eq h]
  cases hs : q.onRegistry r with
  | error f => exact .inl ⟨f, rfl, rfl⟩
  | ok s =>
    obtain ⟨t, ht, -, hback⟩ := (storable (.decode h) hq hs).exists_encode
    exact .inr ⟨s, t, rfl, ht, written_eq_ok.2 ht, hback⟩

theorem decode_rewrite (h : Registry.decode kept = .ok r) {q : Request}
    (hq : q.AddsRepresentable r) : Registry.decode (q.rewrite kept) = .ok (q.update r) := by
  rcases agree h hq with ⟨f, htext, hregistry⟩ | ⟨s, t, hregistry, -, htext, hback⟩
  · rw [rewrite_of_error htext, update_of_error hregistry, h]
  · rw [rewrite_of_ok htext, update_of_ok hregistry, hback]

end Request

/-! ## Every session -/

/-- What the host keeps is read as the registry in memory, request after request. -/
theorem decode_textAfter (h : Registry.decode kept = .ok r) {requests : List Request}
    (hadds : ∀ earlier q, earlier ++ [q] <+: requests →
      q.AddsRepresentable (registryAfter r earlier)) :
    Registry.decode (textAfter kept requests) = .ok (registryAfter r requests) := by
  induction requests generalizing kept r with
  | nil => exact h
  | cons first requests ih =>
    have hfirst : first.AddsRepresentable r := hadds [] first (by simp)
    refine ih (Request.decode_rewrite h hfirst) fun earlier q hprefix => ?_
    exact hadds (first :: earlier) q ((List.prefix_append_right_inj [first]).2 hprefix)

/-- **A host that keeps texts notices no difference from a registry in memory.** Start from any text
that is read as a registry, of either layout, and send any requests of which each axis that is added
brings representable attributes. Each request is refused on the text exactly when it is refused in
memory, for the same reason; otherwise it gives the text that the registry in memory is written as.
What the host keeps in the end is read as that registry. -/
theorem session_agrees {start : Registry} (h : Registry.decode kept = .ok start)
    (requests : List Request)
    (hadds : ∀ earlier q, earlier ++ [q] <+: requests →
      q.AddsRepresentable (registryAfter start earlier)) :
    (∀ earlier q, earlier ++ [q] <+: requests →
      (∀ f, q.onText (textAfter kept earlier) = .error f ↔
        q.onRegistry (registryAfter start earlier) = .error f) ∧
      (∀ t, q.onText (textAfter kept earlier) = .ok t ↔
        ∃ s, q.onRegistry (registryAfter start earlier) = .ok s ∧ s.encode = .ok t)) ∧
    Registry.decode (textAfter kept requests) = .ok (registryAfter start requests) := by
  refine ⟨fun earlier q hprefix => ?_, decode_textAfter h hadds⟩
  have hkept : Registry.decode (textAfter kept earlier) = .ok (registryAfter start earlier) := by
    refine decode_textAfter h fun before p hbefore => hadds before p ?_
    exact hbefore.trans ((List.prefix_append earlier [q]).trans hprefix)
  rcases Request.agree hkept (hadds earlier q hprefix) with
    ⟨f, htext, hregistry⟩ | ⟨s, t, hregistry, ht, htext, -⟩
  · simp [htext, hregistry]
  · simp [htext, hregistry, ht]

/-- The session starts with a document of the old layout. The first list of rotations is refused at
its second name, with the first one undone; the axis is added once and refused the second time. -/
theorem session_agrees_legacy :
    let d : LegacyDocument := ⟨2, 4, .ofList [("A".toText, ⟨["x".toText], false⟩)],
      .ofList [("A::x".toText, [2, 1])]⟩
    let kept : Payload := .text d.toJson.compact
    let axis : Axis := ⟨"B".toText, [("y".toText, .hybridized)], true⟩
    let rotations := Request.rotate (.array [.string "A::x".toText, .string "A::z".toText])
    let added := Request.addAxis (.text axis.toJson.compact)
    let r := registryAfter (Registry.ofLegacy d) [rotations, added]
    Registry.decode kept = .ok (Registry.ofLegacy d) ∧
      rotations.onText kept = .error (.fault (.attributeNotFound ⟨"A".toText, "z".toText⟩)) ∧
      (∃ t, added.onText (textAfter kept [rotations]) = .ok t ∧ r.encode = .ok t) ∧
      added.onText (textAfter kept [rotations, added]) =
        .error (.fault (.existingAxis "B".toText)) := by
  intro d kept axis rotations added r
  have hread : Registry.decode kept = .ok (Registry.ofLegacy d) :=
    Registry.decode_toJson_legacy rfl rfl (by decide) (by decide)
  have haxis : Axis.decode (.text axis.toJson.compact) = .ok axis :=
    Axis.decode_toJson (by decide)
  have hadds : ∀ earlier q, earlier ++ [q] <+: [rotations, added, added] →
      q.AddsRepresentable (registryAfter (Registry.ofLegacy d) earlier) := by
    intro earlier q hprefix
    have hmem : q ∈ [rotations, added, added] := hprefix.subset (by simp)
    simp only [List.mem_cons, List.not_mem_nil, or_false, or_self] at hmem
    rcases hmem with rfl | rfl
    · trivial
    · intro a s ha _
      rw [haxis] at ha
      cases ha
      decide
  obtain ⟨hagree, -⟩ := session_agrees hread [rotations, added, added] hadds
  have hadded : ∀ s, added.onRegistry s = orFault (s.addAxis axis) := by
    intro s
    simp [added, Request.onRegistry, haxis, orFault, Except.mapError, bind, Except.bind]
  have hrefused : rotations.onRegistry (Registry.ofLegacy d) =
      .error (.fault (.attributeNotFound ⟨"A".toText, "z".toText⟩)) := rfl
  have hlast : r = added.update (Registry.ofLegacy d) := by
    show registryAfter (Registry.ofLegacy d) [rotations, added] = _
    rw [registryAfter_cons, registryAfter_cons, Request.update_of_error hrefused, registryAfter_nil]
  have hr : added.onRegistry (Registry.ofLegacy d) = .ok r := by
    rw [hlast, Request.update, hadded]
    rfl
  refine ⟨hread, ?_, ?_, ?_⟩
  · obtain ⟨hfirst, -⟩ := hagree [] rotations (by simp)
    exact (hfirst _).2 hrefused
  · obtain ⟨t, ht, -, -⟩ :=
      (Request.storable (.decode hread) (hadds [rotations] added (by simp)) hr).exists_encode
    exact ⟨t, ((hagree [rotations] added (by simp)).2 t).2 ⟨r, hr, ht⟩, ht⟩
  · obtain ⟨hagain, -⟩ := hagree [rotations, added] added (by simp)
    refine (hagain _).2 ?_
    show added.onRegistry r = _
    rw [hlast, Request.update, hadded, hadded]
    rfl

end AttributeAccess.Exchange
