import Eecs482.RelyGuarantee
import Eecs482.LabelledWalk
import Eecs482.FileServerRequest
import Eecs482.FileServerEdit
import Eecs482.FileServerEffect
import Eecs482.FileServerMachine
import Eecs482.FileServerLookup
import Eecs482.FileServerInit
import Eecs482.FileServerOperations
import Eecs482.FileServerRely
import Eecs482.FileServerRules
import Eecs482.FileServerDiskRules
import Eecs482.FileServerTraverse
import Eecs482.FileServerHandlerRules
import Eecs482.FileServerRuns
import Eecs482.FileServerLinear
import Eecs482.FileServerProgress
import Eecs482.SoloRun
import Eecs482.FileServerAlone
import Eecs482.FileServerAnswers
import Eecs482.FileServerRefinement
import Eecs482.FileServerSlots
import Eecs482.FileServerExits
import Eecs482.Words
import Eecs482.FileServerGrammar
import Eecs482.FileServerDirectories
import Eecs482.TraceRefinement
import Eecs482.PagerState
import Eecs482.PagerOperations
import Eecs482.SchedulerServices
import Eecs482.UniprocessorRules
import Eecs482.ThreadLibrary
import Eecs482.ThreadInterrupts
import Eecs482.ThreadSignals
import Eecs482.PagerSwapBlocks
import Eecs482.PagerSwitches
import Eecs482.PagerRefinement
import Eecs482.FileServerReceive
import Eecs482.FileServerSend
import Eecs482.PagerAddresses
import Eecs482.PagerClock
import Eecs482.PagerFailures
import Eecs482.PagerMappedNames
import Eecs482.PagerFileIds
import Eecs482.NotedProg
import Eecs482.FileServerAccesses
import Eecs482.FileServerBounds
import Eecs482.FileServerRestarts
import Eecs482.FileServerCompletion
import Eecs482.SchedulerFiles
import Eecs482.FileServerExchange
import Eecs482.PagerSwapTraffic
import Eecs482.SchedulerThreads
