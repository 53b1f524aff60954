/-
# Scene records read back

Segments and nodes carry a tag in front of their fields; a node is read as the
record that stands behind the tag, which has no field of that name itself.
-/

import PageContent.Proofs.Record.Text

namespace PageContent

open Json
open Durable (ofJson?_toJson isFinite_of_ofJson?)

/-! ## Segments -/

namespace Segment

variable {site : Site} {s : Segment}

/-- The tag of a segment. -/
def tag : Segment → String
  | .move _ => "move"
  | .line _ => "line"
  | .curve .. => "curve"
  | .close => "close"

/-- The names of the numbers behind the tag. -/
def names : Segment → List String
  | .move _ | .line _ => ["x", "y"]
  | .curve .. => ["cp1x", "cp1y", "cp2x", "cp2y", "x", "y"]
  | .close => []

/-- The numbers behind the tag. -/
def numbers : Segment → List Float
  | .move p | .line p => [p.x, p.y]
  | .curve c₁ c₂ p => [c₁.x, c₁.y, c₂.x, c₂.y, p.x, p.y]
  | .close => []

/-- The record behind the tag. -/
def body (s : Segment) : Json := .object (s.names.zip (s.numbers.map toJson))

theorem toJson_eq (s : Segment) : toJson s = s.body.withTag s.tag := by cases s <;> rfl

theorem isFinite_numbers (h : IsFinite s) : IsFinite s.numbers := by
  cases s with
  | move p => exact h
  | line p => exact h
  | curve c₁ c₂ p =>
    intro x hx
    rcases List.mem_append.1 (show x ∈ [c₁.x, c₁.y] ++ ([c₂.x, c₂.y] ++ [p.x, p.y]) from hx) with
      hx | hx
    · exact h.1 x hx
    · exact (List.mem_append.1 hx).elim (h.2.1 x) (h.2.2 x)
  | close => exact isFinite_nil

theorem writable_body (h : IsFinite s) : s.body.Writable 1 := by
  refine writable_object.2 fun f hf => ?_
  obtain ⟨x, hx, hvalue⟩ := List.mem_map.1 (List.of_mem_zip hf).2
  rw [← hvalue]
  exact Shallow.writable (isFinite_numbers h x hx)

theorem untagged_body (s : Segment) : s.body.Untagged := by
  cases s <;> simp [Untagged, body, names, numbers]

theorem numbers?_body (h : IsFinite s) : numbers? s.names s.body = some s.numbers := by
  have hfields : s.body.fields? (s.names.map ([·])) s.names.length =
      some (s.numbers.map fun x => some (toJson x)) := by cases s <;> rfl
  unfold numbers?
  rw [hfields]
  exact mapM_map fun x hx => need_toJson (isFinite_numbers h x hx)

theorem point?_of_numbers? {body : Json} {p : Point Float}
    (h : numbers? ["x", "y"] body = some [p.x, p.y]) : point? body = some p := by
  unfold point?
  rw [h]
  rfl

theorem read?_toJson (h : IsFinite s) : Segment.read? site (toJson s) = some s := by
  unfold Segment.read?
  rw [toJson_eq, tagged?_withTag s.tag (writable_body h).usable s.untagged_body]
  cases s with
  | move p =>
    show (point? (move p).body).bind _ = _
    rw [point?_of_numbers? (numbers?_body h)]
    rfl
  | line p =>
    show (point? (line p).body).bind _ = _
    rw [point?_of_numbers? (numbers?_body h)]
    rfl
  | curve c₁ c₂ p =>
    show (numbers? (curve c₁ c₂ p).names (curve c₁ c₂ p).body).bind _ = _
    rw [numbers?_body h]
    rfl
  | close => rfl

theorem isFinite_of_numbers? {names : List String} {body : Json} {xs : List Float}
    (hbody : body.Fits) (h : numbers? names body = some xs) : IsFinite xs := by
  obtain ⟨given, hgiven, h⟩ := Option.bind_eq_some_iff.1 h
  have hfit := givenFit_of_fields? hbody hgiven
  exact forall_of_mapM (fun _ ho _ hx => hfit.need ho hx) h

theorem isFinite_of_point? {body : Json} {p : Point Float} (hbody : body.Fits)
    (h : point? body = some p) : IsFinite p := by
  obtain ⟨xs, hxs, h⟩ := Option.bind_eq_some_iff.1 h
  split at h
  · obtain rfl := Option.some.inj h
    exact isFinite_of_numbers? hbody hxs
  · contradiction

theorem isFinite_of_read? {j : Json} (hj : j.Fits) (h : Segment.read? site j = some s) :
    IsFinite s := by
  obtain ⟨⟨tag, body⟩, htag, h⟩ := Option.bind_eq_some_iff.1 h
  have hbody := fits_of_tagged? hj htag
  dsimp only at h
  split at h
  · obtain ⟨p, hp, h⟩ := Option.bind_eq_some_iff.1 h
    obtain rfl := Option.some.inj h
    exact isFinite_of_point? hbody hp
  · obtain ⟨p, hp, h⟩ := Option.bind_eq_some_iff.1 h
    obtain rfl := Option.some.inj h
    exact isFinite_of_point? hbody hp
  · obtain ⟨xs, hxs, h⟩ := Option.bind_eq_some_iff.1 h
    have hfinite := isFinite_of_numbers? hbody hxs
    split at h
    · obtain rfl := Option.some.inj h
      simp only [isFinite_cons] at hfinite
      obtain ⟨hx₁, hy₁, hx₂, hy₂, hx, hy, -⟩ := hfinite
      have hpair : ∀ {x y : Float}, IsFinite x → IsFinite y → IsFinite [x, y] :=
        fun hx hy => isFinite_cons.2 ⟨hx, isFinite_cons.2 ⟨hy, isFinite_nil⟩⟩
      exact ⟨hpair hx₁ hy₁, hpair hx₂ hy₂, hpair hx hy⟩
    · contradiction
  · obtain ⟨xs, hxs, h⟩ := Option.bind_eq_some_iff.1 h
    split at h
    · obtain rfl := Option.some.inj h
      trivial
    · contradiction
  · contradiction

end Segment

instance : Durable Segment where
  ofJson?_toJson := Segment.read?_toJson
  isFinite_of_ofJson? := Segment.isFinite_of_read?

instance : Shallow Segment 1 where
  writable {s} h := by
    rw [Segment.toJson_eq]
    exact (Segment.writable_body h).withTag

/-! ## Shapes and images -/

namespace Shape

variable {site : Site} {s : Shape}

theorem read?_toJson (h : IsFinite s) : Shape.read? site (toJson s) = some s := by
  obtain ⟨hpath, hthickness, hopacity⟩ := h
  have hread : list? (Segment.read? site) (toJson s.path) = some s.path :=
    list?_toJson fun _ ht => Segment.read?_toJson (hpath _ ht)
  unfold Shape.read?
  show (some [some (toJson s.id), some (toJson s.path), some (toJson s.thickness),
    some (toJson s.strokeColor), some (toJson s.fillColor), some (toJson s.opacity),
    some (toJson s.isFilled), some (toJson s.isStroked)]).bind _ = _
  simp only [Option.bind_some, need_toJson, isFinite_string, isFinite_bool, hthickness, hopacity,
    hread]
  rfl

theorem isFinite_of_read? {j : Json} (hj : j.Fits) (h : Shape.read? site j = some s) :
    IsFinite s := by
  refine isFinite_of_fields? hj (fun given hgiven h => ?_) h
  split at h
  · simp only [↓bind_eq_some] at h
    obtain ⟨id, -, path, hpath, thickness, hthickness, strokeColor, -, fillColor, -, opacity,
      hopacity, isFilled, -, isStroked, -, h⟩ := h
    obtain rfl := Option.some.inj h
    obtain ⟨list, rfl, hlist⟩ := Option.bind_eq_some_iff.1 hpath
    have hlistfits := hgiven (some list) (by simp) list rfl
    exact ⟨isFinite_of_list? hlistfits Segment.isFinite_of_read? hlist,
      hgiven.need (by simp) hthickness, hgiven.need (by simp) hopacity⟩
  · contradiction

end Shape

instance : Durable Shape where
  ofJson?_toJson := Shape.read?_toJson
  isFinite_of_ofJson? := Shape.isFinite_of_read?

instance : Shallow Shape 3 where
  writable h := .field trivial <| .field h.1 <| .field h.2.1 <| .field trivial <| .field trivial <|
    .field h.2.2 <| .field trivial <| .field trivial .fieldless

theorem Image.fields?_toJson (i : Image) :
    fields? [["id"], ["name"], ["bbox"], ["opacity"]] 4 (toJson i) =
      some [some (toJson i.id), i.name.map toJson, some (toJson i.bbox),
        some (toJson i.opacity)] := by
  obtain ⟨id, name, bbox, opacity⟩ := i
  cases name <;> rfl

instance : Durable Image where
  ofJson?_toJson {i} hi := by
    obtain ⟨hbbox, hopacity⟩ := hi
    show (fields? _ _ (toJson i)).bind _ = _
    simp only [Image.fields?_toJson, Option.bind_some, need_toJson, orElse_map_toJson,
      isFinite_string, isFinite_text, hbbox, hopacity]
    rfl
  isFinite_of_ofJson? hj := isFinite_of_fields? hj fun given hgiven h => by
    split at h
    · simp only [↓bind_eq_some] at h
      obtain ⟨id, -, name, -, bbox, hbbox, opacity, hopacity, h⟩ := h
      obtain rfl := Option.some.inj h
      exact ⟨hgiven.need (by simp) hbbox, hgiven.need (by simp) hopacity⟩
    · contradiction

instance : Shallow Image 2 where
  writable {i} h := by
    obtain ⟨hbbox, hopacity⟩ := h
    exact .field trivial <| .optionalField (isFinite_text i.name) <| .field hbbox <|
      .field hopacity .fieldless

/-! ## Nodes -/

namespace Node

/-- The record behind the tag of a node. -/
def body : Node → Json
  | .shape s => toJson s
  | .image i => toJson i
  | .text f => toJson f
  | .line l => toJson l

/-- The tag of a node. -/
def tag : Node → String
  | .shape _ => "shape"
  | .image _ => "image"
  | .text _ => "text"
  | .line _ => "line"

theorem toJson_eq (n : Node) : toJson n = n.body.withTag n.tag := by cases n <;> rfl

theorem writable_body {n : Node} (h : IsFinite n) : n.body.Writable 5 := by
  cases n with
  | shape s => exact (Shallow.writable (α := Shape) h).mono (by decide)
  | image i => exact (Shallow.writable (a := i) h).mono (by decide)
  | text f => exact (Shallow.writable (a := f) h).mono (by decide)
  | line l => exact Shallow.writable (a := l) h

/-- What a node holds has no field that could be taken for its tag. -/
theorem untagged_body (n : Node) : n.body.Untagged := by
  cases n with
  | shape s => simp [body, Untagged, toJson]
  | image i =>
    obtain ⟨id, name, bbox, opacity⟩ := i
    cases name <;> simp [body, Untagged, toJson, optionalField]
  | text f =>
    obtain ⟨id, content, bbox, origin, matrix, font, size, color, isBold, isItalic, weight,
      fallbackFamily, lineId, glyphs⟩ := f
    cases fallbackFamily <;> cases lineId <;> cases glyphs <;>
      simp [body, Untagged, toJson, optionalField]
  | line l => simp [body, Untagged, toJson]

end Node

instance : Durable Node where
  ofJson?_toJson {n} hn := by
    show ((toJson n).tagged? .outside Node.tags).bind _ = _
    rw [Node.toJson_eq, tagged?_withTag n.tag (Node.writable_body hn).usable n.untagged_body]
    cases n with
    | shape s =>
      show (Shape.read? .inside (toJson s)).map _ = _
      rw [Shape.read?_toJson hn]
      rfl
    | image i =>
      show (ofJson? (toJson i)).map _ = _
      rw [ofJson?_toJson (a := i) hn]
      rfl
    | text f =>
      show (Fragment.read? .inside (toJson f)).map _ = _
      rw [Fragment.read?_toJson hn]
      rfl
    | line l =>
      show (Line.read? .inside (toJson l)).map _ = _
      rw [Line.read?_toJson hn]
      rfl
  isFinite_of_ofJson? {j n} hj h := by
    obtain ⟨⟨tag, body⟩, htag, h⟩ := Option.bind_eq_some_iff.1 h
    have hbody := fits_of_tagged? hj htag
    dsimp only at h
    split at h
    · obtain ⟨s, hs, rfl⟩ := Option.map_eq_some_iff.1 h
      exact Shape.isFinite_of_read? hbody hs
    · obtain ⟨i, hi, rfl⟩ := Option.map_eq_some_iff.1 h
      exact isFinite_of_ofJson? (a := i) hbody hi
    · obtain ⟨f, hf, rfl⟩ := Option.map_eq_some_iff.1 h
      exact Fragment.isFinite_of_read? hbody hf
    · obtain ⟨l, hl, rfl⟩ := Option.map_eq_some_iff.1 h
      exact Line.isFinite_of_read? hbody hl
    · contradiction

instance : Shallow Node 5 where
  writable {n} h := by
    rw [Node.toJson_eq]
    exact (Node.writable_body h).withTag

instance : Durable SceneGraph where
  ofJson?_toJson {g} hg := by
    have hnodes : IsFinite g.nodes := hg
    show (some [some (toJson g.nodes)]).bind _ = _
    simp only [Option.bind_some, need_toJson, hnodes]
    rfl
  isFinite_of_ofJson? hj := isFinite_of_fields? hj fun given hgiven h => by
    split at h
    · simp only [↓bind_eq_some] at h
      obtain ⟨nodes, hnodes, h⟩ := h
      obtain rfl := Option.some.inj h
      exact show IsFinite nodes from hgiven.need (by simp) hnodes
    · contradiction

instance : Shallow SceneGraph 7 where
  writable h := .field (show IsFinite _ from h) .fieldless

end PageContent
