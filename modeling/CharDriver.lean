import CharDriver.BaseMachine
import CharDriver.BaseHeap
import CharDriver.BaseInt
import CharDriver.BaseOverlay
import CharDriver.ChardevModel
import CharDriver.ChardevLayout
import CharDriver.ChardevTrim
import CharDriver.ChardevStore
import CharDriver.ChardevRefine
import CharDriver.ChardevStream
import CharDriver.ChardevFileMap
import CharDriver.ChardevLeak
import CharDriver.ChardevThreads
import CharDriver.ChardevModule
import CharDriver.ChardevInvariant
import CharDriver.RwFileModel
import CharDriver.RwFileOwnership
import CharDriver.RwFileSessions
import CharDriver.RwFileRegistration
import CharDriver.ChardevLifetime
import CharDriver.ChardevList
import CharDriver.ChardevReadOnly
import CharDriver.ChardevOffsets
import CharDriver.ChardevBytes
import CharDriver.ChardevAllocations
import CharDriver.ChardevInvisible
import CharDriver.ChardevCuts
import CharDriver.RwFileTransfers
import CharDriver.Demo03
import CharDriver.Demo03Reader
import CharDriver.BaseSemaphore
import CharDriver.ChardevSteps
import CharDriver.ChardevSemaphore
import CharDriver.BaseLinear
import CharDriver.ChardevLinear
import CharDriver.ChardevExclusive
import CharDriver.ChardevHistory
import CharDriver.ChardevReader
import CharDriver.RwFileOverlap
import CharDriver.TestProgram
import CharDriver.BaseSettles
import CharDriver.ChardevSettles
import CharDriver.ChardevMemory
import CharDriver.Modules
