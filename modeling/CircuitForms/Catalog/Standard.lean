import CircuitForms.Catalog.Basic

/-! # The standard catalog -/

namespace CircuitForms.Catalog

def table : List Entry := [
  ⟨"in", .input, .sentinel, 0⟩,
  ⟨"out", .output, .sentinel, 0⟩,
  ⟨"id", .noop, .fixed 1, 0⟩,
  ⟨"x", .x, .fixed 1, 0⟩,
  ⟨"y", .y, .fixed 1, 0⟩,
  ⟨"z", .z, .fixed 1, 0⟩,
  ⟨"s", .s, .fixed 1, 0⟩,
  ⟨"sdg", .sdg, .fixed 1, 0⟩,
  ⟨"t", .t, .fixed 1, 0⟩,
  ⟨"tdg", .tdg, .fixed 1, 0⟩,
  ⟨"v", .v, .fixed 1, 0⟩,
  ⟨"vdg", .vdg, .fixed 1, 0⟩,
  ⟨"h", .h, .fixed 1, 0⟩,
  ⟨"rx", .rx, .fixed 1, 1⟩,
  ⟨"ry", .ry, .fixed 1, 1⟩,
  ⟨"rz", .rz, .fixed 1, 1⟩,
  ⟨"u1", .u1, .fixed 1, 1⟩,
  ⟨"u2", .u2, .fixed 1, 2⟩,
  ⟨"u3", .u3, .fixed 1, 3⟩,
  ⟨"cx", .cx, .fixed 2, 0⟩,
  ⟨"cy", .cy, .fixed 2, 0⟩,
  ⟨"cz", .cz, .fixed 2, 0⟩,
  ⟨"ch", .ch, .fixed 2, 0⟩,
  ⟨"ccx", .ccx, .fixed 3, 0⟩,
  ⟨"crz", .crz, .fixed 2, 1⟩,
  ⟨"cu1", .cu1, .fixed 2, 1⟩,
  ⟨"cu3", .cu3, .fixed 2, 3⟩,
  ⟨"phase", .phaseGadget, .atLeastOne, 1⟩,
  ⟨"symrz", .symbolicRz, .fixed 1, 1⟩,
  ⟨"measure", .measure, .atLeastOne, 0⟩]

/-- The catalog of the operations that have names and kinds of their own. -/
def standard : Catalog where
  entries := table
  index := .ofTable table
  indexed := by rfl

theorem ofEntries_standard : ofEntries standard.entries = .ok standard := by
  rfl

end CircuitForms.Catalog
