import PrefixScript.Main
import PrefixScript.Template
import PrefixScript.Proofs.ArityCheck
import PrefixScript.Proofs.GrammarExactness
import PrefixScript.Proofs.Callability
import PrefixScript.Proofs.KnownKinds
import PrefixScript.Proofs.Scoping
import PrefixScript.Proofs.Unwinding
import PrefixScript.Proofs.Languages
import PrefixScript.Proofs.Expansion
import PrefixScript.Proofs.Inclusion
import PrefixScript.Proofs.Splicing
import PrefixScript.Proofs.SingleReading
import PrefixScript.Proofs.LineBreaks
import PrefixScript.Proofs.Composition
import PrefixScript.Proofs.SpacedTokens
import PrefixScript.Proofs.CanonicalSource
import PrefixScript.Proofs.SessionChain
import PrefixScript.Proofs.DepthLimits
import PrefixScript.Proofs.DeclarationPlaces
import PrefixScript.Proofs.IndependentRuns
import PrefixScript.Proofs.EntryPoints
import PrefixScript.Proofs.LongestMatch
import PrefixScript.Proofs.LexicalErrors
import PrefixScript.Proofs.EarliestErrors
import PrefixScript.Proofs.CountedLoops
import PrefixScript.Proofs.NumberTexts
import PrefixScript.Proofs.TextualEquality
import PrefixScript.Proofs.NumberRoundTrip
import PrefixScript.Proofs.Colours
