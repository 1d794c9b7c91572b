import InfixCalculator.Text.Quoted
import InfixCalculator.Proofs.Binding
import InfixCalculator.Proofs.Simplification.Rounds

/-!
# Quoted expressions are restored

An expression is stored as its canonical text between quotes.  Nearly every
character can be part of a symbol, so the text may hold all that is escaped
there: quotes, backslashes, control characters.  Without the quotes it is the
canonical text again, and a table that binds its symbols reads the expression
from it, with its own operators.

Two expressions with one canonical text are therefore the same tree.  Any table
that binds the symbols of both shows it, and `Table.ofList` makes one.

* `Expr.Obtained`: read with some table, or simplified.
* `Expr.render_eq_iff`: the canonical text tells everything but what the symbols
  are bound to.
* `Quoted.encode_injective`: so does the text between quotes.
* `parse_decode_encode`: quoted expressions are restored.
-/

namespace InfixCalculator

variable {α : Type}

theorem Quoted.encode_injective : Function.Injective Quoted.encode := by
  intro text text' h
  have hdecode := congrArg Quoted.decode h
  rw [Quoted.decode_encode, Quoted.decode_encode] at hdecode
  exact Option.some.inj hdecode

namespace Expr

/-- The same tree with the same symbols, whatever they are bound to. -/
abbrev SameText : Expr α → Expr α → Prop := Expr.Rel fun a b => a.symbol = b.symbol

theorem sameText_of_rebind_eq {t : Table α} {e e' : Expr α} (h : e.rebind t = e'.rebind t) :
    e.SameText e' := by
  induction e generalizing e' with
  | num x =>
    cases e' with
    | num y =>
      cases h
      exact .num x
    | neg e' => cases h
    | bin l' op' r' => cases h
  | neg e ih =>
    cases e' with
    | num y => cases h
    | neg e' => exact .neg (ih (Expr.neg.inj h))
    | bin l' op' r' => cases h
  | bin l op r ihl ihr =>
    cases e' with
    | num y => cases h
    | neg e' => cases h
    | bin l' op' r' =>
      obtain ⟨hl, hop, hr⟩ := Expr.bin.inj h
      have hsymbol := congrArg Operator.symbol hop
      rw [Table.symbol_getD_get?, Table.symbol_getD_get?] at hsymbol
      exact .bin (ihl hl) hsymbol (ihr hr)

variable [Number α]

theorem SameText.render_eq {e e' : Expr α} (h : e.SameText e') : e.render = e'.render := by
  induction h with
  | num x => rfl
  | neg _ ih => rw [render, render, ih]
  | bin _ hsymbol _ ihl ihr => rw [render, render, ihl, ihr, hsymbol]

/-- Read with some table, or simplified from such an expression. -/
inductive Obtained : Expr α → Prop
  | read {t : Table α} {text : List Char} {e : Expr α} : Expr.read t text = .ok e → Obtained e
  | simplify {e : Expr α} : Obtained e → Obtained e.simplify

theorem Obtained.usable {e : Expr α} (h : e.Obtained) : ∀ op ∈ e.operators, Usable op.symbol := by
  induction h with
  | read h => exact fun op hop => (binds_of_read h op hop).2
  | simplify _ ih => exact usable_simplify ih

end Expr

section Integers

variable {width : Nat}

theorem read_render_of_mem_symbols {t : Table (Signed width)} {e : Expr (Signed width)}
    (hsymbol : ∀ op ∈ e.operators, Usable op.symbol)
    (hbound : ∀ op ∈ e.operators, op.symbol ∈ t.symbols) :
    Expr.read t e.render = .ok (e.rebind t) :=
  (read_render t).1 e fun op hop => ⟨hsymbol op hop, Table.get?_isSome_iff.mpr (hbound op hop)⟩

/-- **A canonical text tells everything but what its symbols are bound to.**  Both trees are what a
table with the operators of both reads. -/
theorem Expr.render_eq_iff {e e' : Expr (Signed width)}
    (h : ∀ op ∈ e.operators, Usable op.symbol) (h' : ∀ op ∈ e'.operators, Usable op.symbol) :
    e.render = e'.render ↔ e.SameText e' := by
  refine ⟨fun hrender => ?_, SameText.render_eq⟩
  let t : Table (Signed width) := .ofList (e.operators ++ e'.operators)
  have hbound : ∀ op ∈ e.operators ++ e'.operators, op.symbol ∈ t.symbols := by
    intro op hop
    rw [Table.symbols_ofList, List.mem_eraseDups]
    exact List.mem_map_of_mem hop
  have hread := read_render_of_mem_symbols h fun op hop => hbound op (List.mem_append_left _ hop)
  have hread' := read_render_of_mem_symbols h' fun op hop => hbound op (List.mem_append_right _ hop)
  rw [hrender, hread'] at hread
  exact sameText_of_rebind_eq (Except.ok.inj hread).symm

/-- **Quoted expressions are restored**: between the quotes stands the canonical text, and a table
that binds its symbols reads the expression from it with its own operators.  So two expressions are
quoted alike exactly if they are the same tree with the same symbols. -/
theorem Calculator.parse_decode_encode :
    (∀ (c : Calculator (Signed width)) (e : Expr (Signed width)), e.Obtained →
      (∀ op ∈ e.operators, op.symbol ∈ c.table.symbols) →
        Quoted.decode (Quoted.encode e.render) = some e.render ∧
          c.parse e.render = .ok (e.rebind c.table)) ∧
      ∀ e e' : Expr (Signed width), e.Obtained → e'.Obtained →
        (Quoted.encode e.render = Quoted.encode e'.render ↔ e.SameText e') := by
  constructor
  · intro c e he hbound
    have hread := read_render_of_mem_symbols he.usable hbound
    exact ⟨Quoted.decode_encode e.render, parse_eq_ok_iff.mpr hread⟩
  · intro e e' he he'
    rw [Quoted.encode_injective.eq_iff]
    exact Expr.render_eq_iff he.usable he'.usable

/-- Symbols of a quote and a backslash, of control characters, and of what is not escaped. -/
def escapes : Calculator (Signed 8) :=
  ⟨.ofList [⟨['"', '\\'], Number.add, 0, .left⟩, ⟨['\x08', '\x01'], Number.sub, 1, .right⟩,
    ⟨['\x7f', 'é', '𝄞'], Number.mul, 2, .left⟩, ⟨['*'], Number.mul, 3, .left⟩]⟩

/-- The same symbols for something else. -/
def otherwise : Calculator (Signed 8) :=
  ⟨.ofList [⟨['*'], Number.div, 0, .none⟩, ⟨['\x7f', 'é', '𝄞'], Number.rem, 0, .right⟩,
    ⟨['\x08', '\x01'], Number.pow, 0, .left⟩, ⟨['"', '\\'], Number.sub, 0, .none⟩]⟩

/-- A simplified expression is restored, and quoted like one with operators of another table. -/
theorem Calculator.parse_decode_encode_escapes :
    ∃ e e', escapes.parse "1 \"\\ -(2) \x08\x01 3 \x7fé𝄞 4".toList = .ok e ∧
      otherwise.parse "1 \"\\ ((-1 *2) \x08\x01 (3 \x7fé𝄞4))".toList = .ok e' ∧
      Quoted.decode "\"(1 \\\"\\\\ ((-1 * 2) \\b\\u0001 (3 \x7fé𝄞 4)))\"".toList =
        some e.simplify.render ∧
      escapes.parse e.simplify.render = .ok (e.simplify.rebind escapes.table) ∧
      e.simplify.SameText e' := by
  have hparse : (escapes.parse "1 \"\\ -(2) \x08\x01 3 \x7fé𝄞 4".toList).toOption.map
      (fun e => (Quoted.encode e.simplify.render, e.simplify.operators.map Operator.symbol)) =
        some ("\"(1 \\\"\\\\ ((-1 * 2) \\b\\u0001 (3 \x7fé𝄞 4)))\"".toList,
          [['"', '\\'], ['*'], ['\x08', '\x01'], ['\x7f', 'é', '𝄞']]) := by
    decide +kernel
  have hparse' : (otherwise.parse "1 \"\\ ((-1 *2) \x08\x01 (3 \x7fé𝄞4))".toList).toOption.map
      (fun e => Quoted.encode e.render) =
        some "\"(1 \\\"\\\\ ((-1 * 2) \\b\\u0001 (3 \x7fé𝄞 4)))\"".toList := by
    decide +kernel
  have hsymbols : ∀ symbol ∈ [['"', '\\'], ['*'], ['\x08', '\x01'], ['\x7f', 'é', '𝄞']],
      symbol ∈ escapes.table.symbols := by
    decide
  obtain ⟨e, he, hquoted⟩ := exists_ok_of_map hparse
  obtain ⟨e', he', hquoted'⟩ := exists_ok_of_map hparse'
  obtain ⟨hencode, hoperators⟩ := Prod.mk.inj hquoted
  have hobtained : e.simplify.Obtained := (Expr.Obtained.read (parse_eq_ok_iff.mp he)).simplify
  have hobtained' : e'.Obtained := .read (parse_eq_ok_iff.mp he')
  have hbound : ∀ op ∈ e.simplify.operators, op.symbol ∈ escapes.table.symbols := fun op hop =>
    hsymbols _ (hoperators ▸ List.mem_map_of_mem hop)
  obtain ⟨hdecode, hrestored⟩ := parse_decode_encode.1 escapes e.simplify hobtained hbound
  rw [hencode] at hdecode
  exact ⟨e, e', he, he', hdecode, hrestored,
    (parse_decode_encode.2 _ _ hobtained hobtained').mp (hencode.trans hquoted'.symm)⟩

end Integers

end InfixCalculator
