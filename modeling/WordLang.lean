import WordLang.CommandLine.Directory
import WordLang.Main
import WordLang.Proofs.Assembly.Allocation
import WordLang.Proofs.Assembly.Data
import WordLang.Proofs.Assembly.Layout
import WordLang.Proofs.Assembly.Lifetimes
import WordLang.Proofs.Execution
import WordLang.Proofs.Flow.Rounds
import WordLang.Proofs.Linear.Labels
import WordLang.Proofs.Linear.Traffic
import WordLang.Proofs.Meaning
import WordLang.Proofs.Scope.Lexical
import WordLang.Proofs.Token.Lookahead
import WordLang.Proofs.Token.Spelling
import WordLang.Proofs.Typing.Decision
import WordLang.Proofs.Typing.Questions
