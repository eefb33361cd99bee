import ApplianceConfig.Proofs.Document.Written
import ApplianceConfig.Proofs.Grammar.Paragraphs
import ApplianceConfig.Proofs.Grammar.Tails

/-!
# Chains and nested braces

A path of keys can be written on one line, or nested: each key but the last opens a brace, and each brace is closed on a line of its own. The line is read as a chain and the braces as groups of one entry, which differ in their styles only. Nothing is asked of the keys but that they are words, so they may look like numbers or truth values, and the value behind the last one may be any scalar, set or group.
-/

namespace ApplianceConfig

open Grammar

/-- Keys one behind the other on a line, with a tail behind the last one. -/
def chainedText (key : String) : List String → String → String
  | [], tail => key ++ " " ++ tail
  | next :: path, tail => key ++ " " ++ chainedText next path tail

/-- The same keys nested. The last one stands on the innermost line, with the tail behind it. -/
def nestedText (key : String) : List String → String → String
  | [], tail => key ++ " " ++ tail
  | next :: path, tail => key ++ " \x7b\n" ++ nestedText next path tail ++ "\n\x7d"

namespace Grammar

/-- The tokens of keys nested behind another one. -/
def nestedTokens (path : List String) (ts : List Token) : List Token :=
  path.foldr (fun key ts => .openBrace :: .newline :: .word (bareWord key) :: (ts ++ [.newline, .closeBrace])) ts

/-- The value of keys nested behind another one. -/
def nest (path : List String) (v : Value) : Value := path.foldr (fun key v => .block [(key, v)]) v

theorem lexes_chainedText {key : String} {path : List String} {tail : String} {ts : List Token}
    (hkeys : ∀ k ∈ key :: path, isBare k = true) (htail : Lexes tail.toList ts) :
    Lexes (chainedText key path tail).toList (.word (bareWord key) :: (keyTokens path ++ ts)) := by
  induction path generalizing key with
  | nil => simpa [chainedText, keyTokens] using Lexes.bare_space (hkeys key List.mem_cons_self) htail
  | cons next path ih =>
    obtain ⟨hkey, hpath⟩ := List.forall_mem_cons.mp hkeys
    simpa [chainedText, keyTokens] using Lexes.bare_space hkey (ih hpath)

theorem lexes_nestedText {key : String} {path : List String} {tail : String} {ts : List Token}
    (hkeys : ∀ k ∈ key :: path, isBare k = true) (htail : Lexes tail.toList ts) :
    Lexes (nestedText key path tail).toList (.word (bareWord key) :: nestedTokens path ts) := by
  induction path generalizing key with
  | nil => simpa [nestedText, nestedTokens] using Lexes.bare_space (hkeys key List.mem_cons_self) htail
  | cons next path ih =>
    obtain ⟨hkey, hpath⟩ := List.forall_mem_cons.mp hkeys
    have hclosed := (ih hpath).line lexes_nil.closeBrace
    simpa [nestedText, nestedTokens] using Lexes.bare_space hkey hclosed.newline.openBrace

theorem StandsFor.nest {ts : List Token} {v : Value} (h : StandsFor ts v) (path : List String) :
    StandsFor (nestedTokens path ts) (Grammar.nest path v) := by
  induction path with
  | nil => exact h
  | cons key path ih => exact ih.group (bareWord key)

theorem unstyled_chain (path : List String) (v : Value) : (chain path v).unstyled = (nest path v).unstyled := by
  induction path with
  | nil => rfl
  | cons key path ih =>
    have hchain : (chain (key :: path) v).unstyled = .map .braced [(key, (chain path v).unstyled)] := rfl
    rw [hchain, ih]
    rfl

/-- A line of keys in front of a value is a document of one entry, a chain if there are several keys. -/
theorem parse_of_line {text : String} {key : String} {path : List String} {ts : List Token} {v : Value}
    (hlexes : Lexes text.toList (.word (bareWord key) :: (keyTokens path ++ ts))) (h : StandsFor ts v) :
    Document.parse text = .ok { entries := [(key, chain path v)] } := by
  have htail := h.lineTail (path.map bareWord) (show LineEnds [] from trivial)
  rw [map_text_bareWord, ← keyTokens_eq, List.append_nil] at htail
  rw [Document.parse_of_lexes hlexes ⟨_, .done, .line htail .done .done⟩, collect_singleton]
  rfl

end Grammar

/-- Keys on one line are read as a chain and the same keys nested as groups, with the value of the tail behind the last key, and the two documents mean the same. The keys may be any words, and the tail any scalar, set or group. -/
theorem Document.parse_chained_same_nested {key : String} {path : List String} {tail : String}
    {lexemes : List Lexeme} (hkeys : ∀ k ∈ key :: path, isBare k = true) (hlex : tokens tail = .ok lexemes)
    (htail : IsTail (lexemes.map Lexeme.token)) :
    ∃ chained nested v, Document.parse (chainedText key path tail) = .ok chained ∧
      Document.parse (nestedText key path tail) = .ok nested ∧ (chained == nested) = true ∧
      StandsFor (lexemes.map Lexeme.token) v ∧ chained = { entries := [(key, chain path v)] } ∧
      nested = { entries := [(key, nest path v)] } := by
  obtain ⟨v, hstands⟩ := htail.exists_standsFor
  have htokens := lexes_of_tokensFrom hlex
  have hchained := parse_of_line (lexes_chainedText hkeys htokens) hstands
  have hnested := @parse_of_line _ key [] _ _ (lexes_nestedText hkeys htokens) (hstands.nest path)
  refine ⟨_, _, v, hchained, hnested, ?_, hstands, rfl, rfl⟩
  apply sameEntries_of_unstyled
  rw [unstyledEntries, unstyledEntries, unstyled_chain]
  rfl

/-- Keys that look like a number and a truth value, nested around a group in which a set stands. -/
theorem Document.parse_chained_same_nested_lookalikes :
    let path := ["80", "true"]
    let tail := "\x7b a \x7b x y \x7d\n b \x7d"
    ∃ lexemes chained nested v, (∀ k ∈ "pool" :: path, isBare k = true) ∧ tokens tail = .ok lexemes ∧
      IsTail (lexemes.map Lexeme.token) ∧ Document.parse (chainedText "pool" path tail) = .ok chained ∧
      Document.parse (nestedText "pool" path tail) = .ok nested ∧ (chained == nested) = true ∧
      StandsFor (lexemes.map Lexeme.token) v ∧ chained = { entries := [("pool", chain path v)] } ∧
      nested = { entries := [("pool", nest path v)] } := by
  intro path tail
  have hkeys : ∀ k ∈ "pool" :: path, isBare k = true := by decide
  have hlexes : Lexes tail.toList [.openBrace, .word (bareWord "a"), .openBrace, .word (bareWord "x"),
      .word (bareWord "y"), .closeBrace, .newline, .word (bareWord "b"), .closeBrace] := by
    have hb := Lexes.bare_space (s := "b") (by decide) lexes_nil.closeBrace
    have hy := Lexes.bare_space (s := "y") (by decide) hb.space.newline.closeBrace
    have ha := Lexes.bare_space (s := "a") (by decide) (Lexes.bare_space (s := "x") (by decide) hy).space.openBrace
    exact (congrArg (Lexes · _) (by decide +kernel)).mpr ha.space.openBrace
  obtain ⟨lexemes, hlex, htokens⟩ := hlexes 0
  have hset : Block.Derives .free [.openBrace, .word (bareWord "x"), .word (bareWord "y"), .closeBrace, .newline,
      .word (bareWord "b"), .closeBrace] (.set ["x", "y"]) [.newline, .word (bareWord "b"), .closeBrace] :=
    .set (List.cons_ne_nil (bareWord "x") [bareWord "y"])
  have htail : IsTail (lexemes.map Lexeme.token) := by
    rw [htokens]
    exact .inr ⟨_, .group nofun .done (.entry (.block hset) (.skip .done) (.entry (.toggle trivial) .done .done))⟩
  obtain ⟨chained, nested, v, hsame⟩ := Document.parse_chained_same_nested hkeys hlex htail
  exact ⟨lexemes, chained, nested, v, hkeys, hlex, htail, hsame⟩

end ApplianceConfig
