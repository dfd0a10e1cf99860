import Pictogram.Proofs.Markup.Nesting

/-! # Element trees

A node is a text or an element with its children; its tokens are those of a walk through it in
document order.  A node leaves the open elements as they were (`opened_of_yields`), so a reader that
skips to the end of an element passes over each child as a whole (`skip_of_yields`). -/

namespace Pictogram

/-- A text, or an element with the places of its opening and closing tags. -/
inductive Node where
  | text (content : Text) (place : Position)
  | element (name : ElementName) (attributes : Table) (place closedAt : Position) (children : List Node)

namespace Node

mutual

/-- The tokens of a node, in document order. -/
def tokens : Node → List Token
  | text content place => [.text content place]
  | element name attributes place closedAt children =>
      .opening name attributes place :: (tokensAll children ++ [.closing name closedAt])

def tokensAll : List Node → List Token
  | [] => []
  | n :: ns => tokens n ++ tokensAll ns

end

end Node

namespace Reader

/-! ### Open elements -/

mutual

/-- A node leaves the open elements as they were. -/
theorem opened_of_yields : ∀ {n : Node} {r r' : Reader}, r.Settled → Yields r n.tokens r' →
    r'.opened = r.opened ∧ r'.Settled
  | .text content place, r, r', hr, h => by
      obtain ⟨s, hn, hs⟩ := yields_cons_iff.mp h
      obtain rfl := yields_nil_iff.mp hs
      obtain ⟨nests, settled⟩ := nests_of_next hr hn
      exact ⟨nests.of_text, settled⟩
  | .element name attributes place closedAt children, r, r', hr, h => by
      obtain ⟨s, hn, hs⟩ := yields_cons_iff.mp h
      obtain ⟨s', hc, hl⟩ := yields_append_iff.mp hs
      obtain ⟨s'', hn', he⟩ := yields_cons_iff.mp hl
      obtain rfl := yields_nil_iff.mp he
      obtain ⟨nests, settled⟩ := nests_of_next hr hn
      obtain ⟨ho, settled'⟩ := opened_of_yields_all settled hc
      obtain ⟨nests', settled''⟩ := nests_of_next settled' hn'
      obtain ⟨e, _, he⟩ := nests.of_opening
      obtain ⟨e', _, he'⟩ := nests'.of_closing
      rw [ho, he] at he'
      exact ⟨(List.cons.inj he').2.symm, settled''⟩

theorem opened_of_yields_all : ∀ {ns : List Node} {r r' : Reader}, r.Settled →
    Yields r (Node.tokensAll ns) r' → r'.opened = r.opened ∧ r'.Settled
  | [], r, r', hr, h => by
      obtain rfl := yields_nil_iff.mp h
      exact ⟨rfl, hr⟩
  | n :: ns, r, r', hr, h => by
      obtain ⟨s, hn, hs⟩ := yields_append_iff.mp h
      obtain ⟨ho, settled⟩ := opened_of_yields hr hn
      obtain ⟨ho', settled'⟩ := opened_of_yields_all settled hs
      exact ⟨ho'.trans ho, settled'⟩

end

/-! ### Skipping -/

mutual

/-- A reader that skips to the end of an element passes over each node inside it. -/
theorem skipTo_of_yields : ∀ {n : Node} {r r' : Reader} {depth : Nat}, r.Settled →
    depth ≤ r.opened.length → Yields r n.tokens r' → r.skipTo depth = r'.skipTo depth
  | .text content place, r, r', depth, hr, hd, h => by
      obtain ⟨s, hn, hs⟩ := yields_cons_iff.mp h
      obtain rfl := yields_nil_iff.mp hs
      rw [skipTo_of_next depth hn]
      exact if_neg (by simp [Token.isClosing])
  | .element name attributes place closedAt children, r, r', depth, hr, hd, h => by
      obtain ⟨ho, _⟩ := opened_of_yields hr h
      obtain ⟨s, hn, hs⟩ := yields_cons_iff.mp h
      obtain ⟨s', hc, hl⟩ := yields_append_iff.mp hs
      obtain ⟨s'', hn', he⟩ := yields_cons_iff.mp hl
      obtain rfl := yields_nil_iff.mp he
      obtain ⟨nests, settled⟩ := nests_of_next hr hn
      obtain ⟨e, _, he⟩ := nests.of_opening
      have hd' : depth ≤ s.opened.length := by rw [he]; exact Nat.le_succ_of_le hd
      rw [skipTo_of_next depth hn, if_neg (by simp [Token.isClosing]),
        skipTo_of_yields_all settled hd' hc, skipTo_of_next depth hn']
      exact if_neg (by rw [ho]; omega)

theorem skipTo_of_yields_all : ∀ {ns : List Node} {r r' : Reader} {depth : Nat}, r.Settled →
    depth ≤ r.opened.length → Yields r (Node.tokensAll ns) r' → r.skipTo depth = r'.skipTo depth
  | [], r, r', depth, hr, hd, h => by rw [yields_nil_iff.mp h]
  | n :: ns, r, r', depth, hr, hd, h => by
      obtain ⟨s, hn, hs⟩ := yields_append_iff.mp h
      obtain ⟨ho, settled⟩ := opened_of_yields hr hn
      rw [skipTo_of_yields hr hd hn, skipTo_of_yields_all settled (by rw [ho]; exact hd) hs]

end

/-- Skipping leads past the children of the innermost element and its closing token. -/
theorem skip_of_yields {r s r' : Reader} {ns : List Node} {name : ElementName} {place : Position}
    (hr : r.Settled) (h : Yields r (Node.tokensAll ns) s) (hn : s.next = .ok (some (.closing name place)) r') :
    r.skip = .ok () r' := by
  obtain ⟨ho, settled⟩ := opened_of_yields_all hr h
  obtain ⟨nests, _⟩ := nests_of_next settled hn
  obtain ⟨e, _, he⟩ := nests.of_closing
  have hlen : r'.opened.length + 1 = r.opened.length := by rw [← ho, he]; rfl
  unfold skip
  rw [skipTo_of_yields_all hr (Nat.le_refl _) h, skipTo_of_next _ hn, if_pos ⟨rfl, hlen⟩]

end Reader
end Pictogram
